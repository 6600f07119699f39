/-
# The encrypting thread (`encryptQueue` of `cryptoThread.c`)

The thread takes chunks out of its input queue, encrypts the first one as the
header and the others with the chain of the chunk before, and puts them into
its output queue, marked to be MACed; after the chunk `DONE` it puts in `DONE`
itself. `encryptQueue` is what it puts out when it is run alone.

A chunk that does not fit into the queue is kept for the next round, and the
flag `encrypted` keeps it from being encrypted again. The header does not set
that flag: it would be encrypted a second time if it did not fit, but it is
the first chunk for that queue (`Fresh`).
-/
import Threefizer.ReadThread
import Threefizer.TfHeader

namespace Threefizer

open Words Queue

/-- What `encryptQueue` carries from chunk to chunk. -/
structure EncryptState where
  first_chunk : Bool
  chain : List Word
  deriving DecidableEq, Repr

namespace EncryptThread

variable (tf : Threefish) (tf_key : ThreefishKey)

/-- The state of the loop when it starts. -/
def EncryptState.init : EncryptState :=
  ⟨true, List.replicate (tf_key.stateSize.bits / 64) 0⟩

/-- The encryption of a chunk other than `DONE`: `none` when `getNumBlocks`
does not return, `some none` when the header cannot be encrypted. -/
def encryptChunk (st : EncryptState) (c : Chunk) : Option (Option (Chunk × EncryptState)) :=
  if st.first_chunk then
    some ((encryptHeader tf tf_key c.data).map fun data =>
      ({ c with data := data }, ⟨false, getChainInBuffer data 2 tf_key.stateSize⟩))
  else
    (getNumBlocks c.data_size tf_key.stateSize).map fun num_blocks =>
      let data := encryptInPlace tf tf_key st.chain c.data num_blocks
      some ({ c with data := data }, { st with chain := getChainInBuffer data num_blocks tf_key.stateSize })

/-- The action of a chunk put into the output queue. -/
def genMac (c : Chunk) : Chunk := { c with action := .GEN_MAC }

/-- `encryptQueue` alone on the chunks of its input queue: what it puts out,
none when it does not return or fails. -/
def encryptQueue (st : EncryptState) : List Chunk → Option (List Chunk)
  | [] => none
  | c :: cs =>
    if c.action = .DONE then some [doneChunk]
    else match encryptChunk tf tf_key st c with
      | some (some (e, st')) => (encryptQueue st' cs).map (genMac e :: ·)
      | _ => none

/-! ### The thread -/

/-- Where the thread stands. -/
inductive Pc
  | alloc
  | fail (code : Error)
  | testRunning | testError | fetch | headerFail | queueIsFull | enque
  | doneIsFull | queueDone
  | returned
  deriving DecidableEq, Repr

/-- The local variables. -/
structure Local where
  pc : Pc
  st : EncryptState
  encrypted : Bool
  encrypt_chunk : Option Chunk
  deriving DecidableEq, Repr

def Local.init : Local := ⟨.alloc, EncryptState.init tf_key, false, none⟩

/-- What is done with a chunk up to the attempt to queue it. -/
def work (l : Local) (c : Chunk) : Option Local :=
  if c.action = .DONE then some { l with pc := .doneIsFull, encrypt_chunk := none }
  else if l.st.first_chunk ∨ ¬ l.encrypted then
    (encryptChunk tf tf_key l.st c).map fun
      | none => { l with pc := .headerFail, encrypt_chunk := none }
      | some (e, st) =>
        ⟨.queueIsFull, st, if l.st.first_chunk then l.encrypted else true, some e⟩
  else some { l with pc := .queueIsFull, encrypt_chunk := some c }

/-- One step of the thread; the outcome is that of the `calloc`. -/
def step (l : Local) (fl : Flags) (inq out : Queue) (o : Outcome) :
    Option (Local × Flags × Queue × Queue) :=
  match l.pc with
  | .alloc =>
    match o with
    | .success => some ({ l with pc := .testRunning }, fl, inq, out)
    | .failure _ => some ({ l with pc := .fail .MEMORY_ALLOCATION_FAIL }, fl, inq, out)
  | .fail code => some ({ l with pc := .returned }, { fl with error := some code }, inq, out)
  | .testRunning =>
    some ({ l with pc := if fl.running then .testError else .doneIsFull }, fl, inq, out)
  | .testError =>
    if fl.error = none then
      match l.encrypt_chunk with
      | none => some ({ l with pc := .fetch }, fl, inq, out)
      | some c => (work tf tf_key l c).map fun l' => (l', fl, inq, out)
    else some ({ l with pc := .doneIsFull }, fl, inq, out)
  | .fetch =>
    if inq.locked then none
    else match inq.front with
      | none => some ({ l with pc := .testRunning }, fl, inq, out)
      | some c => (work tf tf_key { l with encrypted := false } c).map fun l' =>
          (l', fl, inq.deque, out)
  | .headerFail =>
    some ({ l with pc := .doneIsFull }, { fl with error := some .CIPHER_OPERATION_FAIL }, inq, out)
  | .queueIsFull =>
    if out.queueIsFull then some ({ l with pc := .testRunning }, fl, inq, out)
    else some ({ l with pc := .enque, encrypt_chunk := l.encrypt_chunk.map genMac }, fl, inq, out)
  | .enque =>
    if out.locked then none
    else match l.encrypt_chunk.bind fun c => out.enque c with
      | some out' => some ({ l with pc := .testRunning, encrypt_chunk := none }, fl, inq, out')
      | none => some ({ l with pc := .testRunning }, fl, inq, out)
  | .doneIsFull =>
    some ({ l with pc := if out.queueIsFull then .doneIsFull else .queueDone }, fl, inq, out)
  | .queueDone =>
    if out.locked then none
    else match out.queueDone with
      | some out' => some ({ l with pc := .returned }, fl, inq, out')
      | none => some ({ l with pc := .fail .QUEUE_OPERATION_FAIL }, fl, inq, out.abandon)
  | .returned => none

/-- The chunks the thread has still to put out if nothing stops it and `ins`
is what it is given. -/
def Rest (l : Local) (ins outs : List Chunk) : Prop :=
  match l.pc with
  | .alloc | .fetch => l.encrypt_chunk = none ∧ encryptQueue tf tf_key l.st ins = some outs
  | .testRunning | .testError =>
    (l.encrypt_chunk = none ∧ encryptQueue tf tf_key l.st ins = some outs) ∨
    (l.st.first_chunk = false ∧ l.encrypted = true ∧ ∃ c os, l.encrypt_chunk = some c ∧
      c.action ≠ .DONE ∧ encryptQueue tf tf_key l.st ins = some os ∧ outs = genMac c :: os)
  | .queueIsFull | .enque => l.st.first_chunk = false ∧ ∃ c os, l.encrypt_chunk = some c ∧
      c.action ≠ .DONE ∧ encryptQueue tf tf_key l.st ins = some os ∧ outs = genMac c :: os ∧
      (l.pc = .enque → genMac c = c)
  | .headerFail | .fail _ => True
  | .doneIsFull | .queueDone => outs = [doneChunk]
  | .returned => outs = []

/-- The only producer of a queue still has the room it has seen. -/
def Ready (l : Local) (out : Queue) : Prop := l.pc = .enque ∨ l.pc = .queueDone → out.HasRoom

/-- Nothing was put out before the header. -/
def Fresh (l : Local) (out : Queue) : Prop :=
  match l.pc with
  | .alloc | .testRunning | .testError | .fetch => l.st.first_chunk = true → out.elements = []
  | .queueIsFull | .enque =>
    l.st.first_chunk = false ∧ (l.encrypted = false → out.elements = [])
  | _ => True

/-! ### The moves of the thread -/

/-- What `work` leaves of a chunk, and where. -/
inductive Worked (l : Local) (c : Chunk) : Local → Prop
  | done : c.action = .DONE → Worked l c { l with pc := .doneIsFull, encrypt_chunk := none }
  | failed : c.action ≠ .DONE → l.st.first_chunk = true →
      Worked l c { l with pc := .headerFail, encrypt_chunk := none }
  | encrypted {e : Chunk} {st' : EncryptState} : c.action ≠ .DONE →
      (l.st.first_chunk = true ∨ l.encrypted = false) →
      encryptChunk tf tf_key l.st c = some (some (e, st')) →
      Worked l c ⟨.queueIsFull, st', if l.st.first_chunk then l.encrypted else true, some e⟩
  | again : c.action ≠ .DONE → l.st.first_chunk = false → l.encrypted = true →
      Worked l c { l with pc := .queueIsFull, encrypt_chunk := some c }

/-- The branches of `step`. -/
inductive Moves (l : Local) (fl : Flags) (inq out : Queue) : Local → Flags → Queue → Queue → Prop
  | allocated : l.pc = .alloc → Moves l fl inq out { l with pc := .testRunning } fl inq out
  | notAllocated : l.pc = .alloc →
      Moves l fl inq out { l with pc := .fail .MEMORY_ALLOCATION_FAIL } fl inq out
  | failed {code : Error} : l.pc = .fail code →
      Moves l fl inq out { l with pc := .returned } { fl with error := some code } inq out
  | running : l.pc = .testRunning → fl.running = true →
      Moves l fl inq out { l with pc := .testError } fl inq out
  | stopped : l.pc = .testRunning → fl.running = false →
      Moves l fl inq out { l with pc := .doneIsFull } fl inq out
  | empty : l.pc = .testError → fl.error = none → l.encrypt_chunk = none →
      Moves l fl inq out { l with pc := .fetch } fl inq out
  | kept {c : Chunk} {l' : Local} : l.pc = .testError → fl.error = none → l.encrypt_chunk = some c →
      Worked tf tf_key l c l' → Moves l fl inq out l' fl inq out
  | error : l.pc = .testError → fl.error ≠ none →
      Moves l fl inq out { l with pc := .doneIsFull } fl inq out
  | nothing : l.pc = .fetch → inq.locked = false → inq.front = none →
      Moves l fl inq out { l with pc := .testRunning } fl inq out
  | taken {c : Chunk} {l' : Local} : l.pc = .fetch → inq.locked = false → inq.front = some c →
      Worked tf tf_key { l with encrypted := false } c l' → Moves l fl inq out l' fl inq.deque out
  | headerFailed : l.pc = .headerFail → Moves l fl inq out { l with pc := .doneIsFull }
      { fl with error := some .CIPHER_OPERATION_FAIL } inq out
  | full : l.pc = .queueIsFull → out.queueIsFull = true →
      Moves l fl inq out { l with pc := .testRunning } fl inq out
  | room : l.pc = .queueIsFull → out.HasRoom →
      Moves l fl inq out { l with pc := .enque, encrypt_chunk := l.encrypt_chunk.map genMac } fl inq out
  | queued {c : Chunk} {out' : Queue} : l.pc = .enque → out.locked = false →
      l.encrypt_chunk = some c → out.enque c = some out' →
      Moves l fl inq out { l with pc := .testRunning, encrypt_chunk := none } fl inq out'
  | notQueued : l.pc = .enque → out.locked = false → (l.encrypt_chunk = none ∨ ¬ out.HasRoom) →
      Moves l fl inq out { l with pc := .testRunning } fl inq out
  | doneFull : l.pc = .doneIsFull → out.queueIsFull = true → Moves l fl inq out l fl inq out
  | doneRoom : l.pc = .doneIsFull → out.HasRoom →
      Moves l fl inq out { l with pc := .queueDone } fl inq out
  | doneQueued {out' : Queue} : l.pc = .queueDone → out.locked = false →
      out.enque doneChunk = some out' → Moves l fl inq out { l with pc := .returned } fl inq out'
  | doneNotQueued : l.pc = .queueDone → out.locked = false → ¬ out.HasRoom →
      Moves l fl inq out { l with pc := .fail .QUEUE_OPERATION_FAIL } fl inq out.abandon

variable {tf tf_key} {l l' : Local} {fl fl' : Flags} {inq inq' out out' : Queue} {o : Outcome}

theorem worked_of_work {c : Chunk} (h : work tf tf_key l c = some l') : Worked tf tf_key l c l' := by
  unfold work at h
  split at h
  next hd => cases h; exact .done hd
  next hd =>
    split at h
    next hw =>
      obtain ⟨r, hr, hx⟩ := Option.map_eq_some_iff.mp h
      rcases r with - | ⟨e, st'⟩ <;> cases hx
      · refine .failed hd ?_
        by_contra hf
        rw [encryptChunk, if_neg hf] at hr
        obtain ⟨n, -, hx⟩ := Option.map_eq_some_iff.mp hr
        cases hx
      · exact .encrypted hd (by simpa using hw) hr
    next hw =>
      cases h
      have hw' : l.st.first_chunk = false ∧ l.encrypted = true := by simpa using hw
      exact .again hd hw'.1 hw'.2

theorem moves_of_step (h : step tf tf_key l fl inq out o = some (l', fl', inq', out')) :
    Moves tf tf_key l fl inq out l' fl' inq' out' := by
  obtain ⟨pc, st, en, ec⟩ := l
  cases pc with
  | alloc =>
    cases o <;> cases h
    · exact .allocated rfl
    · exact .notAllocated rfl
  | fail code => cases h; exact .failed rfl
  | testRunning =>
    cases h
    cases hr : fl.running with
    | true => exact .running rfl hr
    | false => exact .stopped rfl hr
  | testError =>
    simp only [step] at h
    split at h
    next he =>
      cases ec with
      | none => cases h; exact .empty rfl he rfl
      | some c =>
        obtain ⟨x, hx, hy⟩ := Option.map_eq_some_iff.mp h
        cases hy; exact .kept rfl he rfl (worked_of_work hx)
    next he => cases h; exact .error rfl he
  | fetch =>
    simp only [step] at h
    split at h
    · cases h
    next hl =>
      have hl' : inq.locked = false := by simpa using hl
      split at h
      next hf => cases h; exact .nothing rfl hl' hf
      next c hf =>
        obtain ⟨x, hx, hy⟩ := Option.map_eq_some_iff.mp h
        cases hy; exact .taken rfl hl' hf (worked_of_work hx)
  | headerFail => cases h; exact .headerFailed rfl
  | queueIsFull =>
    simp only [step] at h
    split at h
    next hf => cases h; exact .full rfl hf
    next hf => cases h; exact .room rfl (hasRoom_iff.mpr (by simpa using hf))
  | enque =>
    simp only [step] at h
    split at h
    · cases h
    next hl =>
      have hl' : out.locked = false := by simpa using hl
      split at h
      next hq =>
        obtain ⟨c, hc, hq'⟩ := Option.bind_eq_some_iff.mp hq
        cases h; exact .queued rfl hl' hc hq'
      next hq =>
        cases h; exact .notQueued rfl hl' (bind_enque_eq_none hq)
  | doneIsFull =>
    simp only [step] at h
    cases hf : out.queueIsFull with
    | true => rw [hf] at h; cases h; exact .doneFull rfl hf
    | false => rw [hf] at h; cases h; exact .doneRoom rfl (hasRoom_iff.mpr hf)
  | queueDone =>
    simp only [step] at h
    split at h
    · cases h
    next hl =>
      have hl' : out.locked = false := by simpa using hl
      split at h
      next hq => cases h; exact .doneQueued rfl hl' hq
      next hq => cases h; exact .doneNotQueued rfl hl' fun hr => enque_ne_none hr hq
  | returned => cases h

/-! ### What a step keeps -/

/-- The thread changes no flag but the error word, and never clears that. -/
theorem Moves.flags (h : Moves tf tf_key l fl inq out l' fl' inq' out') :
    fl' = fl ∨ ∃ code, fl' = { fl with error := some code } := by
  cases h <;> first | exact Or.inl rfl | exact Or.inr ⟨_, rfl⟩

/-- An error is set by a thread that is at a `fail`, or has not encrypted the header. -/
theorem Moves.keeps_error (h : Moves tf tf_key l fl inq out l' fl' inq' out') (hl : ∀ code, l.pc ≠ .fail code)
    (hh : l.pc ≠ .headerFail) : fl'.error = fl.error := by
  cases h with
  | failed hp => exact absurd hp (hl _)
  | headerFailed hp => exact absurd hp hh
  | _ => rfl

/-- It only takes chunks out of its input queue. -/
theorem Moves.takes (h : Moves tf tf_key l fl inq out l' fl' inq' out') :
    inq' = inq ∨ inq' = inq.deque := by
  cases h <;> first | exact Or.inl rfl | exact Or.inr rfl

/-- The next thread only makes room. -/
theorem Ready.of_takes (htakes : out' = out ∨ out' = out.deque) (h : Ready l out) : Ready l out' :=
  fun hp => (h hp).of_takes htakes

theorem Moves.ready (h : Moves tf tf_key l fl inq out l' fl' inq' out') : Ready l' out' := by
  intro hp
  cases h with
  | room _ hr => exact hr
  | doneRoom _ hr => exact hr
  | kept _ _ _ hw => cases hw <;> simp at hp
  | taken _ _ _ hw => cases hw <;> simp at hp
  | doneFull h1 _ => simp [h1] at hp
  | _ => simp at hp

/-- What the thread is about to put into its queue. -/
def put (l : Local) : Option Chunk :=
  match l.pc with
  | .enque => l.encrypt_chunk
  | .queueDone => some doneChunk
  | _ => none

theorem pc_of_put (h : put l ≠ none) : l.pc = .enque ∨ l.pc = .queueDone := by
  obtain ⟨pc, st, en, ec⟩ := l
  cases pc with
  | enque => exact Or.inl rfl
  | queueDone => exact Or.inr rfl
  | _ => exact absurd rfl h

theorem Moves.produces (h : Moves tf tf_key l fl inq out l' fl' inq' out') :
    Produces (put l) (put l') out out' := by
  have hlooks : put l' ≠ none → out'.HasRoom := fun hput => h.ready (pc_of_put hput)
  cases h with
  | queued hp _ hc hq => exact .of_enque (by rw [put, hp]; exact hc) hq hlooks
  | notQueued hp _ hn => exact .of_kept (by rw [put, hp]; exact hn) hlooks
  | doneQueued hp _ hq => exact .of_enque (by rw [put, hp]) hq hlooks
  | doneNotQueued hp _ hn => exact .of_abandon (by rw [put, hp]) hn hlooks
  | _ => exact .of_kept (Or.inl (by simp [put, *])) hlooks

theorem Moves.capacity (h : Moves tf tf_key l fl inq out l' fl' inq' out') :
    out'.capacity = out.capacity :=
  h.produces.capacity

theorem step_of_put {c : Chunk} (hput : put l = some c) (hlock : out.locked = false) :
    ∃ x, step tf tf_key l fl inq out .success = some x := by
  obtain ⟨pc, st, en, ec⟩ := l
  cases pc with
  | enque => cases hq : ec.bind fun c => out.enque c <;> simp [step, hlock, hq]
  | queueDone => cases hq : out.queueDone <;> simp [step, hlock, hq]
  | _ => cases hput

theorem encryptChunk_action {st st' : EncryptState} {c e : Chunk}
    (h : encryptChunk tf tf_key st c = some (some (e, st'))) :
    e.action = c.action ∧ st'.first_chunk = false := by
  unfold encryptChunk at h
  split at h
  · obtain ⟨d, -, hx⟩ := Option.map_eq_some_iff.mp (Option.some.inj h)
    cases hx; exact ⟨rfl, rfl⟩
  next hf =>
    obtain ⟨n, -, hx⟩ := Option.map_eq_some_iff.mp h
    cases hx; exact ⟨rfl, by simpa using hf⟩

theorem Fresh.of_takes (htakes : out' = out ∨ out' = out.deque) (h : Fresh l out) : Fresh l out' := by
  have ht : out.elements = [] → out'.elements = [] := fun h => by rcases htakes with rfl | rfl <;> simp [h]
  unfold Fresh at h ⊢
  split <;> simp_all

theorem Moves.fresh (h : Moves tf tf_key l fl inq out l' fl' inq' out') (hf : Fresh l out) :
    Fresh l' out' := by
  obtain ⟨pc, st, en, ec⟩ := l
  cases h with
  | kept hp _ _ hw =>
    cases hp
    cases hw with
    | done _ => trivial
    | failed _ _ => trivial
    | encrypted _ _ he =>
      refine ⟨(encryptChunk_action he).2, fun h => hf ?_⟩
      by_contra hfc
      simp [hfc] at h
    | again _ h1 h2 => exact ⟨h1, fun h => absurd (h.symm.trans h2) (by decide)⟩
  | taken hp _ _ hw =>
    cases hp
    cases hw with
    | done _ => trivial
    | failed _ _ => trivial
    | encrypted _ _ he =>
      refine ⟨(encryptChunk_action he).2, fun h => hf ?_⟩
      by_contra hfc
      simp [hfc] at h
    | again _ _ h2 => cases h2
  | full hp _ => cases hp; exact fun h => absurd (hf.1.symm.trans h) (by decide)
  | room hp _ => cases hp; exact hf
  | queued hp _ _ _ => cases hp; exact fun h => absurd (hf.1.symm.trans h) (by decide)
  | notQueued hp _ _ => cases hp; exact fun h => absurd (hf.1.symm.trans h) (by decide)
  | doneFull hp _ => cases hp; trivial
  | _ hp => cases hp; first | exact hf | trivial

/-- While nothing disturbs it, the thread moves what it has still to put out
into its queue: nothing is lost, doubled or encrypted twice. -/
theorem Moves.rest (h : Moves tf tf_key l fl inq out l' fl' inq' out') (hrun : fl.running = true)
    (herr : fl.error = none) (herr' : fl'.error = none) (hroom : Ready l out) (hfresh : Fresh l out)
    (hcap : 0 < out.capacity) {x outs : List Chunk}
    (hR : Rest tf tf_key l (inq.elements ++ x) outs) :
    ∃ outs', Rest tf tf_key l' (inq'.elements ++ x) outs' ∧
      out'.elements ++ outs' = out.elements ++ outs := by
  obtain ⟨pc, st, en, ec⟩ := l
  cases h with
  | allocated hp => cases hp; exact ⟨outs, Or.inl hR, rfl⟩
  | notAllocated hp => exact ⟨outs, trivial, rfl⟩
  | failed hp => cases herr'
  | running hp _ => cases hp; exact ⟨outs, hR, rfl⟩
  | stopped hp h => exact absurd (hrun.symm.trans h) (by decide)
  | empty hp _ hn =>
    cases hp; cases hn
    rcases hR with hR | ⟨-, -, c, -, hc, -⟩
    · exact ⟨outs, hR, rfl⟩
    · cases hc
  | kept hp _ hc hw =>
    cases hp; cases hc
    obtain ⟨hc, -⟩ | ⟨hf, he, c', os, hc, hd, hos, rfl⟩ := hR
    · cases hc
    cases hc
    cases hw with
    | done hd' => exact absurd hd' hd
    | failed _ hf' => exact absurd (hf.symm.trans hf') (by decide)
    | encrypted _ h _ =>
      rcases h with h | h
      · exact absurd (hf.symm.trans h) (by decide)
      · exact absurd (he.symm.trans h) (by decide)
    | again _ _ _ => exact ⟨_, ⟨hf, _, os, rfl, hd, hos, rfl, nofun⟩, rfl⟩
  | error hp h => exact absurd herr h
  | nothing hp _ _ => cases hp; exact ⟨outs, Or.inl hR, rfl⟩
  | taken hp _ hfr hw =>
    cases hp
    obtain ⟨hn, hq⟩ := hR
    rw [front_eq_some hfr, List.cons_append, encryptQueue] at hq
    cases hw with
    | done hd =>
      rw [if_pos hd] at hq
      exact ⟨outs, (Option.some.inj hq).symm, rfl⟩
    | failed _ _ => exact ⟨outs, trivial, rfl⟩
    | encrypted hd _ he =>
      rw [if_neg hd, he] at hq
      obtain ⟨os, hos, rfl⟩ := Option.map_eq_some_iff.mp hq
      obtain ⟨ha, hf⟩ := encryptChunk_action he
      exact ⟨_, ⟨hf, _, os, rfl, ha ▸ hd, hos, rfl, nofun⟩, rfl⟩
    | again _ _ h => cases h
  | headerFailed hp => cases herr'
  | full hp hfull =>
    cases hp
    obtain ⟨hf, c, os, hc, hd, hos, rfl, -⟩ := hR
    refine ⟨_, Or.inr ⟨hf, ?_, c, os, hc, hd, hos, rfl⟩, rfl⟩
    -- a full queue is not empty, so this is not the header
    by_contra hen
    have h0 : out.elements = [] := hfresh.2 (by simpa using hen)
    simp [queueIsFull, h0] at hfull
    omega
  | room hp _ =>
    cases hp
    obtain ⟨hf, c, os, hc, hd, hos, rfl, -⟩ := hR
    cases hc
    exact ⟨_, ⟨hf, genMac c, os, rfl, Action.noConfusion, hos, rfl, fun _ => rfl⟩, rfl⟩
  | queued hp _ hc hq =>
    cases hp; cases hc
    obtain ⟨hf, c, os, hc, hd, hos, rfl, hg⟩ := hR
    cases hc
    exact ⟨os, Or.inl ⟨rfl, hos⟩, by rw [(enque_eq_some hq).1, hg rfl]; simp⟩
  | notQueued hp _ h =>
    cases hp
    obtain ⟨hf, c, os, hc, hd, hos, rfl, hg⟩ := hR
    rcases h with h | h
    · exact absurd (hc.symm.trans h) (Option.some_ne_none _)
    · exact absurd (hroom (Or.inl rfl)) h
  | doneFull hp _ => cases hp; exact ⟨outs, hR, rfl⟩
  | doneRoom hp _ => cases hp; exact ⟨outs, hR, rfl⟩
  | doneQueued hp _ hq =>
    cases hp
    exact ⟨[], rfl, by rw [(enque_eq_some hq).1, show outs = [doneChunk] from hR]; simp⟩
  | doneNotQueued hp _ h => cases hp; exact absurd (hroom (Or.inr rfl)) h

/-! ### What the thread may still put out -/

/-- A chunk in hand is not `DONE`, and is marked when it is about to be queued. -/
def Carrying (l : Local) : Prop :=
  ∀ c, l.encrypt_chunk = some c → c.action ≠ .DONE ∧ (l.pc = .enque → c.action = .GEN_MAC)

/-- The number of chunks in hand. -/
def load (l : Local) : ℕ := l.encrypt_chunk.toList.length

theorem load_le (l : Local) : load l ≤ 1 := by
  unfold load
  cases l.encrypt_chunk <;> simp

theorem Worked.carrying {c : Chunk} (h : Worked tf tf_key l c l') : Carrying l' := by
  cases h with
  | done _ => exact nofun
  | failed _ _ => exact nofun
  | encrypted hd _ he => exact fun d hc => ⟨Option.some.inj hc ▸ (encryptChunk_action he).1 ▸ hd, nofun⟩
  | again hd _ _ => exact fun d hc => ⟨Option.some.inj hc ▸ hd, nofun⟩

theorem Moves.carrying (h : Moves tf tf_key l fl inq out l' fl' inq' out') (hC : Carrying l) :
    Carrying l' := by
  cases h with
  | kept _ _ _ hw => exact hw.carrying
  | taken _ _ _ hw => exact hw.carrying
  | room _ _ =>
    intro c hc
    obtain ⟨d, -, rfl⟩ := Option.map_eq_some_iff.mp hc
    exact ⟨nofun, fun _ => rfl⟩
  | queued _ _ _ _ => exact nofun
  | doneFull _ _ => exact hC
  | _ => exact fun c hc => ⟨(hC c hc).1, nofun⟩

theorem Moves.not_returned (h : Moves tf tf_key l fl inq out l' fl' inq' out') : l.pc ≠ .returned := by
  cases h <;> simp_all

/-- Taking out `DONE` leaves nothing in hand. -/
theorem Worked.load {c : Chunk} (h : Worked tf tf_key l c l') (hf : inq.front = some c) :
    EncryptThread.load l' + inq.deque.data ≤ inq.data := by
  have hle := load_le l'
  have hdeq := data_deque_le inq
  cases h with
  | done _ => simpa [EncryptThread.load] using hdeq
  | failed _ _ => simpa [EncryptThread.load] using hdeq
  | encrypted hd _ _ => have := data_front hf hd; omega
  | again hd _ _ => have := data_front hf hd; omega

/-- The thread makes no more chunks out of those it is given. -/
theorem Moves.load (h : Moves tf tf_key l fl inq out l' fl' inq' out') :
    out'.data + EncryptThread.load l' + inq'.data ≤ out.data + EncryptThread.load l + inq.data := by
  cases h with
  | kept _ _ hc _ =>
    have h1 : EncryptThread.load l = 1 := by simp [EncryptThread.load, hc]
    have h2 := load_le l'
    omega
  | taken _ _ hf hw => have := hw.load hf; omega
  | room _ _ => cases hc : l.encrypt_chunk <;> simp [EncryptThread.load, hc]
  | queued _ _ hc hq =>
    have := data_enque_le hq
    simp [EncryptThread.load, hc]
    omega
  | doneQueued _ _ hq => rw [data_enque_done hq]; exact le_rfl
  | _ => exact le_rfl

/-- The thread leaves the mutex of its queue free. -/
theorem Moves.opens (h : Moves tf tf_key l fl inq out l' fl' inq' out') (hroom : Ready l out) {n : ℕ}
    (ho : out.Open n) : out'.Open n :=
  h.produces.opens (fun hput => hroom (pc_of_put hput)) ho

/-- `DONE` is the last thing the thread puts out. -/
theorem Moves.done_last (h : Moves tf tf_key l fl inq out l' fl' inq' out') (hC : Carrying l)
    (hd : out'.HasDone) : out.HasDone ∨ l'.pc = .returned := by
  cases h with
  | queued _ _ hc hq => exact (hasDone_enque hq hd).imp id fun h => absurd h (hC _ hc).1
  | doneQueued _ _ _ => exact Or.inr rfl
  | _ => exact Or.inl hd

/-- What the thread does to its output queue. -/
theorem Moves.puts (h : Moves tf tf_key l fl inq out l' fl' inq' out') (hroom : Ready l out) (hC : Carrying l) :
    out' = out ∨ ∃ c, enque c out = some out' ∧ (c.action = .DONE → l.pc = .queueDone) := by
  cases h with
  | queued _ _ hc hq => exact Or.inr ⟨_, hq, fun hd => absurd hd (hC _ hc).1⟩
  | doneQueued hp _ hq => exact Or.inr ⟨_, hq, fun _ => hp⟩
  | doneNotQueued hp _ hn => exact absurd (hroom (Or.inr hp)) hn
  | _ => exact Or.inl rfl

/-- What it puts out is marked to be MACed. -/
theorem Moves.marks (h : Moves tf tf_key l fl inq out l' fl' inq' out') (hC : Carrying l) :
    ∀ c ∈ out'.elements, c ∈ out.elements ∨ c.action = .GEN_MAC ∨ c.action = .DONE := by
  intro d hd
  cases h with
  | queued hp _ hc hq =>
    rw [(enque_eq_some hq).1] at hd
    rcases List.mem_append.mp hd with hd | hd
    · exact Or.inl hd
    · exact Or.inr (Or.inl (List.mem_singleton.mp hd ▸ (hC _ hc).2 hp))
  | doneQueued _ _ hq =>
    rw [(enque_eq_some hq).1] at hd
    rcases List.mem_append.mp hd with hd | hd
    · exact Or.inl hd
    · exact Or.inr (Or.inr (List.mem_singleton.mp hd ▸ rfl))
  | _ => exact Or.inl hd

/-! ### The end of the thread -/

/-- The thread is past its loop. -/
def Ends (l : Local) : Prop := l.pc = .doneIsFull ∨ l.pc = .queueDone ∨ l.pc = .returned

theorem Worked.ends {c : Chunk} (h : Worked tf tf_key l c l') (he : Ends l') : c.action = .DONE := by
  cases h with
  | done hd => exact hd
  | _ => rcases he with h | h | h <;> cases h

/-- It comes to its end by `DONE`, a flag or an error. -/
theorem Moves.ends (h : Moves tf tf_key l fl inq out l' fl' inq' out') (hC : Carrying l) (he : Ends l') :
    Ends l ∨ inq.HasDone ∨ fl.running = false ∨ fl'.error ≠ none := by
  cases h with
  | failed _ => exact Or.inr (Or.inr (Or.inr (Option.some_ne_none _)))
  | stopped _ hr => exact Or.inr (Or.inr (Or.inl hr))
  | kept _ _ hc hw => exact absurd (hw.ends he) (hC _ hc).1
  | error _ herr => exact Or.inr (Or.inr (Or.inr herr))
  | taken _ _ hf hw =>
    refine Or.inr (Or.inl ⟨_, ?_, hw.ends he⟩)
    rw [front_eq_some hf]
    exact List.mem_cons_self
  | headerFailed _ => exact Or.inr (Or.inr (Or.inr (Option.some_ne_none _)))
  | doneFull hp _ => exact Or.inl (Or.inl hp)
  | doneRoom hp _ => exact Or.inl (Or.inl hp)
  | doneQueued hp _ _ => exact Or.inl (Or.inr (Or.inl hp))
  | _ => rcases he with h | h | h <;> cases h

/-- Only an allocation that fails makes the thread return without `DONE`. -/
theorem step_fail {code : Error} (h : step tf tf_key l fl inq out o = some (l', fl', inq', out'))
    (hroom : Ready l out) (hf : l'.pc = .fail code) : l.pc = .alloc ∧ o ≠ .success := by
  cases moves_of_step h with
  | notAllocated hp =>
    refine ⟨hp, ?_⟩
    rintro rfl
    simp [step, hp] at h
  | kept _ _ _ hw => cases hw <;> cases hf
  | taken _ _ _ hw => cases hw <;> cases hf
  | doneFull hp _ => rw [hp] at hf; cases hf
  | doneNotQueued hp _ hn => exact absurd (hroom (Or.inr hp)) hn
  | _ => cases hf

theorem Moves.returns (h : Moves tf tf_key l fl inq out l' fl' inq' out') (hl : ∀ code, l.pc ≠ .fail code)
    (hp : l'.pc = .returned) : out'.HasDone := by
  cases h with
  | failed hp' => exact absurd hp' (hl _)
  | kept _ _ _ hw => cases hw <;> cases hp
  | taken _ _ _ hw => cases hw <;> cases hp
  | doneFull hp' _ => rw [hp'] at hp; cases hp
  | doneQueued _ _ hq => exact ⟨doneChunk, by rw [(enque_eq_some hq).1]; simp, rfl⟩
  | _ => cases hp

/-- The chunks the thread puts out before `DONE` if it sees an error. -/
def late (l : Local) : ℕ :=
  match l.pc with
  | .fetch | .queueIsFull | .enque => 1
  | _ => 0

theorem late_le (l : Local) : late l ≤ 1 := by
  unfold late
  split <;> omega

/-- After an error the thread puts out one chunk at most. -/
theorem Moves.late (h : Moves tf tf_key l fl inq out l' fl' inq' out') (herr : fl'.error ≠ none) :
    out'.data + EncryptThread.late l' ≤ out.data + EncryptThread.late l := by
  cases h with
  | empty _ he _ => exact absurd he herr
  | kept _ he _ _ => exact absurd he herr
  | taken hp _ _ _ =>
    have h1 : EncryptThread.late l = 1 := by simp [EncryptThread.late, hp]
    have := late_le l'
    omega
  | room hp _ => simp [EncryptThread.late, hp]
  | queued hp _ _ hq =>
    have := data_enque_le hq
    simp only [EncryptThread.late, hp]
    omega
  | doneFull _ _ => exact le_rfl
  | doneQueued _ _ hq => rw [data_enque_done hq]; exact Nat.le_add_right _ _
  | _ => exact Nat.le_add_right _ _

/-- How far a thread that sees an error is from its end. -/
def rank (l : Local) : ℕ :=
  match l.pc with
  | .alloc | .fetch => 9
  | .queueIsFull => 8
  | .enque => 7
  | .testRunning => 6
  | .testError | .headerFail => 5
  | .doneIsFull => 4
  | .queueDone => 3
  | .fail _ => 1
  | .returned => 0

variable (tf) in
theorem rank_work {c : Chunk} (hc : Countable tf_key.stateSize c) (l : Local) :
    ∃ l', work tf tf_key l c = some l' ∧ rank l' < 9 := by
  unfold work
  split
  · exact ⟨_, rfl, by simp [rank]⟩
  · split
    · obtain ⟨n, hn⟩ := Option.ne_none_iff_exists'.mp hc
      have hsome : ∃ r, encryptChunk tf tf_key l.st c = some r := by
        unfold encryptChunk
        split
        · exact ⟨_, rfl⟩
        · rw [hn]; exact ⟨_, rfl⟩
      obtain ⟨r, hr⟩ := hsome
      rw [hr]
      rcases r with - | ⟨e, st⟩ <;> exact ⟨_, rfl, by simp [rank]⟩
    · exact ⟨_, rfl, by simp [rank]⟩

variable (tf) in
/-- With an error set and room in its queue the thread comes nearer to its end. -/
theorem progress (herr : fl.error ≠ none) (hroom : out.HasRoom) (hin : inq.locked = false)
    (hlock : out.locked = false) (hcount : ∀ c ∈ inq.elements, Countable tf_key.stateSize c)
    (hp : l.pc ≠ .returned) :
    ∃ l' fl' inq' out', step tf tf_key l fl inq out .success = some (l', fl', inq', out') ∧ rank l' < rank l := by
  obtain ⟨pc, st, en, ec⟩ := l
  have hfull := hasRoom_iff.mp hroom
  cases pc with
  | alloc => simp [step, rank]
  | fail code => simp [step, rank]
  | testRunning => cases hr : fl.running <;> simp [step, hr, rank]
  | testError => simp [step, herr, rank]
  | fetch =>
    cases hf : inq.front with
    | none => simp [step, hin, hf, rank]
    | some c =>
      have hc : Countable tf_key.stateSize c := hcount c (by rw [front_eq_some hf]; exact List.mem_cons_self)
      obtain ⟨l', hw, hlt⟩ := rank_work tf hc ⟨.fetch, st, false, ec⟩
      exact ⟨l', fl, inq.deque, out, by simp [step, hin, hf, hw], hlt⟩
  | headerFail => simp [step, rank]
  | queueIsFull => simp [step, hfull, rank]
  | enque => cases hq : ec.bind fun c => out.enque c <;> simp [step, hlock, hq, rank]
  | doneIsFull => simp [step, hfull, rank]
  | queueDone =>
    obtain ⟨out', hq⟩ := enque_of_room doneChunk hroom
    simp [step, hlock, queueDone, hq, rank]
  | returned => exact absurd rfl hp

end EncryptThread

end Threefizer
