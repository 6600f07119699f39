/-
# The error that is reported

All threads set one error word, and `runThreefizer` returns what it holds at
the end. A thread that fails sets it without looking at what it holds
(`pending`, `failure`). Most loops are left quietly when the word is set, but
`authenticateMAC` treats every way out of its second loop other than a tag that
agrees as `MAC_CHECK_FAIL`, also the one taken because of an error of another
thread.
-/
import Mathlib.Data.Finset.Insert
import Threefizer.Controller
import Threefizer.Lib.ErrorWord

namespace Threefizer

open Words Queue

/-- The error of a call that can fail. -/
def Outcome.error (o : Outcome) (code : Error) : Option Error :=
  match o with
  | .success => none
  | .failure _ => some code

theorem Outcome.error_of_ne {o : Outcome} (h : o ≠ .success) (code : Error) : o.error code = some code := by
  cases o with
  | success => exact absurd rfl h
  | failure k => rfl

theorem Outcome.error_ne {code d : Error} (o : Outcome) (h : code ≠ d) : o.error code ≠ some d := by
  cases o with
  | success => exact (Option.some_ne_none d).symm
  | failure k => exact fun he => h (Option.some.inj he)

/-! ### The threads -/

namespace Reader

/-- The code a reader is about to set. -/
def pending (l : Local) : Option Error :=
  match l.pc with
  | .fail code => some code
  | _ => none

/-- The code a reader fails with in its next step. -/
def failure (R : Reader) (l : Local) (o : Outcome) : Option Error :=
  match l.pc with
  | .start => if R.tooSmall then some .FILE_TOO_SMALL else o.error .FILE_IO_FAIL
  | _ => none

variable {R : Reader} {l l' : Local} {fl fl' : Flags} {out out' : Queue} {o : Outcome}

theorem Moves.sets (h : R.Moves l fl out l' fl' out') : fl'.error = (pending l).or fl.error := by
  cases h with
  | failed hp => simp [pending, hp]
  | _ => simp [pending, *]

theorem step_enters {code : Error} (h : R.step l fl out o = some (l', fl', out')) (hroom : Ready l out)
    (hp' : pending l' = some code) : R.failure l o = some code := by
  cases moves_of_step h with
  | tooSmall hp ht => cases hp'; simp [failure, hp, ht]
  | notOpened hp ht =>
    cases hp'
    have ho : o ≠ .success := by
      rintro rfl
      simp [step, hp, ht] at h
    simp [failure, hp, ht, o.error_of_ne ho]
  | doneNotQueued hp _ hn => exact absurd (hroom (Or.inr hp)) hn
  | full hp _ => simp [pending, hp] at hp'
  | doneFull hp _ => simp [pending, hp] at hp'
  | _ => cases hp'

/-- The code for a queue that has no room is none of those a reader fails with. -/
theorem failure_ne (R : Reader) (l : Local) (o : Outcome) :
    R.failure l o ≠ some .QUEUE_OPERATION_FAIL := by
  unfold Reader.failure
  split
  · split
    · decide
    · exact o.error_ne (by decide)
  · decide

end Reader

namespace EncryptThread

/-- The code the thread is about to set. -/
def pending (l : Local) : Option Error :=
  match l.pc with
  | .fail code => some code
  | .headerFail => some .CIPHER_OPERATION_FAIL
  | _ => none

/-- The header cannot be encrypted if its data is a null pointer. -/
def chunkFailure (st : EncryptState) (c : Chunk) : Option Error :=
  if c.action ≠ .DONE ∧ st.first_chunk = true ∧ c.data = [] then some .CIPHER_OPERATION_FAIL else none

/-- The code the thread fails with in its next step. -/
def failure (l : Local) (fl : Flags) (inq : Queue) (o : Outcome) : Option Error :=
  match l.pc with
  | .alloc => o.error .MEMORY_ALLOCATION_FAIL
  | .testError => if fl.error = none then l.encrypt_chunk.bind (chunkFailure l.st) else none
  | .fetch => inq.front.bind (chunkFailure l.st)
  | _ => none

variable {tf : Threefish} {tf_key : ThreefishKey} {l l' : Local} {fl fl' : Flags} {inq inq' out out' : Queue}
  {o : Outcome}

theorem Moves.sets (h : Moves tf tf_key l fl inq out l' fl' inq' out') :
    fl'.error = (pending l).or fl.error := by
  cases h with
  | failed hp => simp [pending, hp]
  | headerFailed hp => simp [pending, hp]
  | _ => simp [pending, *]

theorem work_enters {code : Error} {c : Chunk} (h : work tf tf_key l c = some l') (hp' : pending l' = some code) :
    chunkFailure l.st c = some code := by
  unfold work at h
  split at h
  next => cases h; cases hp'
  next hd =>
    split at h
    next =>
      obtain ⟨r, hr, hx⟩ := Option.map_eq_some_iff.mp h
      rcases r with - | ⟨e, st'⟩ <;> cases hx <;> cases hp'
      rw [encryptChunk] at hr
      split at hr
      next hfirst =>
        have hnone := Option.map_eq_none_iff.mp (Option.some.inj hr)
        have hdata : c.data = [] := by
          by_contra hne
          rw [encryptHeader, if_neg hne] at hnone
          exact Option.some_ne_none _ hnone
        exact if_pos ⟨hd, hfirst, hdata⟩
      next =>
        obtain ⟨n, -, hx⟩ := Option.map_eq_some_iff.mp hr
        cases hx
    next => cases h; cases hp'

theorem step_enters {code : Error} (h : step tf tf_key l fl inq out o = some (l', fl', inq', out'))
    (hroom : Ready l out) (hp' : pending l' = some code) : failure l fl inq o = some code := by
  obtain ⟨pc, st, en, ec⟩ := l
  cases pc with
  | alloc => cases o <;> cases h <;> cases hp'; rfl
  | testRunning => cases h; cases hr : fl.running <;> simp [pending, hr] at hp'
  | testError =>
    simp only [step] at h
    split at h
    next he =>
      cases ec with
      | none => cases h; cases hp'
      | some c =>
        obtain ⟨x, hx, hy⟩ := Option.map_eq_some_iff.mp h
        cases hy
        simp only [failure, if_pos he]
        exact work_enters hx hp'
    next => cases h; cases hp'
  | fetch =>
    simp only [step] at h
    split at h
    · cases h
    · split at h
      next => cases h; cases hp'
      next c hf =>
        obtain ⟨x, hx, hy⟩ := Option.map_eq_some_iff.mp h
        cases hy
        simp only [failure, hf]
        exact work_enters hx hp'
  | queueDone =>
    simp only [step] at h
    split at h
    · cases h
    · split at h
      next => cases h; cases hp'
      next hq => exact absurd hq (enque_ne_none (hroom (Or.inr rfl)))
  | fail code => cases h; cases hp'
  | headerFail => cases h; cases hp'
  | queueIsFull =>
    simp only [step] at h
    split at h <;> cases h <;> cases hp'
  | enque =>
    simp only [step] at h
    split at h
    · cases h
    · split at h <;> cases h <;> cases hp'
  | doneIsFull => cases h; cases hf : out.queueIsFull <;> simp [pending, hf] at hp'
  | returned => cases h

theorem failure_ne (l : Local) (fl : Flags) (inq : Queue) (o : Outcome) :
    failure l fl inq o ≠ some .QUEUE_OPERATION_FAIL := by
  have hchunk : ∀ (x : Option Chunk), x.bind (chunkFailure l.st) ≠ some .QUEUE_OPERATION_FAIL := by
    intro x h
    obtain ⟨c, -, hc⟩ := Option.bind_eq_some_iff.mp h
    unfold chunkFailure at hc
    split at hc <;> cases hc
  unfold failure
  split
  · exact o.error_ne (by decide)
  · split
    · exact hchunk _
    · decide
  · exact hchunk _
  · decide

end EncryptThread

namespace GenerateThread

variable {sk : Skein}

/-- The code the thread is about to set. -/
def pending (l : Local sk) : Option Error :=
  match l.pc with
  | .fail code => some code
  | _ => none

/-- The code the thread fails with in its next step. -/
def failure (l : Local sk) (inq : Queue) : Option Error :=
  match l.pc with
  | .tail1 => if inq.front = none then some .MAC_GENERATION_FAIL else none
  | .tail2 => if ∀ c ∈ inq.front, c.action ≠ .DONE then some .MAC_GENERATION_FAIL else none
  | _ => none

/-- The tag is there when it is to be queued. -/
def Tagged (l : Local sk) : Prop := l.pc = .spinMac ∨ l.pc = .enqueMac → l.mac_chunk ≠ none

variable {mc : MacCtx sk} {l l' : Local sk} {fl fl' : Flags} {inq inq' out out' : Queue}

theorem Moves.sets (h : Moves mc l fl inq out l' fl' inq' out') (hroom : Ready l out) (hT : Tagged l) :
    fl'.error = (pending l).or fl.error := by
  cases h with
  | failed hp => simp [pending, hp]
  | macNotQueued hp _ hn =>
    rcases hn with hn | hn
    · exact absurd hn (hT (Or.inr hp))
    · exact absurd (hroom (Or.inr (Or.inl hp))) hn
  | _ => simp [pending, *]

theorem Moves.tagged (h : Moves mc l fl inq out l' fl' inq' out') (hT : Tagged l) : Tagged l' := by
  intro hp'
  cases h with
  | empty _ _ => rcases enter_pc mc l with h | h | h <;> simp [h] at hp'
  | notDone _ _ _ => rcases enter_pc mc l with h | h | h <;> simp [h] at hp'
  | @taken c _ _ _ => rcases work_pc mc { l with chunk_maced := false } c with h | h <;> simp [h] at hp'
  | full hp _ => simp [hp] at hp'
  | final _ _ _ => exact Option.some_ne_none _
  | macFull hp _ => exact hT (Or.inl hp)
  | macRoom hp _ => exact hT (Or.inl hp)
  | doneFull hp _ => simp [hp] at hp'
  | _ => simp at hp'

theorem pending_work (l : Local sk) (c : Chunk) : pending (work mc l c) = none := by
  rcases work_pc mc l c with h | h <;> simp [pending, h]

theorem pending_enter (l : Local sk) : pending (enter mc l) = none := by
  rcases enter_pc mc l with h | h | h <;> simp [pending, h]

theorem Moves.enters {code : Error} (h : Moves mc l fl inq out l' fl' inq' out') (hroom : Ready l out)
    (hp' : pending l' = some code) : failure l inq = some code := by
  cases h with
  | empty _ _ => exact absurd ((pending_enter l).symm.trans hp') (Option.some_ne_none _).symm
  | notDone _ _ _ => exact absurd ((pending_enter l).symm.trans hp') (Option.some_ne_none _).symm
  | taken _ _ _ => exact absurd ((pending_work _ _).symm.trans hp') (Option.some_ne_none _).symm
  | noTail hp hf => cases hp'; simp [failure, hp, hf]
  | notFinal hp hf hd => cases hp'; simp [failure, hp, hf, hd]
  | full hp _ => simp [pending, hp] at hp'
  | macFull hp _ => simp [pending, hp] at hp'
  | doneFull hp _ => simp [pending, hp] at hp'
  | doneNotQueued hp _ hn => exact absurd (hroom (Or.inr (Or.inr hp))) hn
  | _ => cases hp'

theorem failure_ne (l : Local sk) (inq : Queue) :
    failure l inq ≠ some .QUEUE_OPERATION_FAIL := by
  unfold failure
  split
  · split <;> decide
  · split <;> decide
  · decide

end GenerateThread

namespace DecryptThread

/-- The code the thread is about to set. -/
def pending (l : Local) : Option Error :=
  match l.pc with
  | .fail code => some code
  | _ => none

/-- The code the thread fails with in its next step. -/
def failure (l : Local) (o : Outcome) : Option Error :=
  match l.pc with
  | .alloc => o.error .MEMORY_ALLOCATION_FAIL
  | _ => none

variable {tf : Threefish} {tf_key : ThreefishKey} {l l' : Local} {fl fl' : Flags} {inq inq' out out' : Queue}
  {o : Outcome}

theorem Moves.sets (h : Moves tf tf_key l fl inq out l' fl' inq' out') :
    fl'.error = (pending l).or fl.error := by
  cases h with
  | failed hp => simp [pending, hp]
  | _ => simp [pending, *]

theorem step_enters {code : Error} (h : step tf tf_key l fl inq out o = some (l', fl', inq', out'))
    (hroom : Ready l out) (hp' : pending l' = some code) : failure l o = some code := by
  cases moves_of_step h with
  | notAllocated hp =>
    cases hp'
    have ho : o ≠ .success := by
      rintro rfl
      simp [step, hp] at h
    simp [failure, hp, o.error_of_ne ho]
  | kept _ _ _ hw => cases hw <;> cases hp'
  | taken _ _ _ hw => cases hw <;> cases hp'
  | doneFull hp _ => simp [pending, hp] at hp'
  | doneNotQueued hp _ hn => exact absurd (hroom hp) hn
  | _ => cases hp'

theorem failure_ne (l : Local) (o : Outcome) :
    failure l o ≠ some .QUEUE_OPERATION_FAIL := by
  unfold failure
  split
  · exact o.error_ne (by decide)
  · decide

end DecryptThread

namespace AuthThread

variable {sk : Skein}

/-- The code the thread is about to set. -/
def pending (l : Local sk) : Option Error :=
  match l.pc with
  | .fail code => some code
  | _ => none

/-- The code the thread fails with in its next step. -/
def failure (tf : Threefish) (tf_key : ThreefishKey) (mc : MacCtx sk) (l : Local sk) (fl : Flags) (inq : Queue)
    (o : Threefizer.Outcome) : Option Error :=
  match l.pc with
  | .headerAlloc =>
    match o with
    | .failure _ => some .MEMORY_ALLOCATION_FAIL
    | .success => if ∃ c ∈ l.mac_chunk, headerSize tf tf_key c = none then some .HEADER_CHECK_FAIL else none
  | .macAlloc => o.error .MEMORY_ALLOCATION_FAIL
  | .test2Running => if fl.running then none else some .MAC_CHECK_FAIL
  | .test2Error => if fl.error = none then none else some .MAC_CHECK_FAIL
  | .fetch2 =>
    if ∃ m ∈ inq.front, ¬ (m.action = .MAC ∧ tagsEqual mc l.calculated_mac m.data = true) then some .MAC_CHECK_FAIL
    else none
  | _ => none

variable {tf : Threefish} {tf_key : ThreefishKey} {mc : MacCtx sk} {l l' : Local sk} {fl fl' : Flags}
  {inq inq' out out' : Queue} {o : Threefizer.Outcome}

theorem Moves.sets (h : Moves tf tf_key mc l fl inq out l' fl' inq' out') :
    fl'.error = (pending l).or fl.error := by
  cases h with
  | failed hp => simp [pending, hp]
  | peekEmpty hp _ => rcases hp with hp | ⟨hp, -⟩ <;> simp [pending, hp]
  | _ => simp [pending, *]

theorem pending_work (l : Local sk) (c : Chunk) : pending (work mc l c) = none := by
  rcases work_pc mc l c with h | h | h <;> simp [pending, h]

theorem step_enters {code : Error} (h : step tf tf_key mc l fl inq out o = some (l', fl', inq', out'))
    (hroom : Ready l out) (hp' : pending l' = some code) : failure tf tf_key mc l fl inq o = some code := by
  cases moves_of_step h with
  | kept _ _ _ => exact absurd ((pending_work l _).symm.trans hp') (Option.some_ne_none _).symm
  | taken _ _ _ _ => exact absurd ((pending_work l _).symm.trans hp') (Option.some_ne_none _).symm
  | seen _ _ _ _ => exact absurd ((pending_work l _).symm.trans hp') (Option.some_ne_none _).symm
  | setValid _ _ => simp [pending, mac_pc] at hp'
  | headerNotAllocated hp =>
    cases hp'
    cases o with
    | failure k => simp [failure, hp]
    | success =>
      simp only [step, hp] at h
      obtain ⟨c, -, hx⟩ := Option.map_eq_some_iff.mp h
      split at hx <;> cases hx
  | headerBad hp hc hn =>
    cases hp'
    cases o with
    | success => simp [failure, hp, hc, hn]
    | failure k =>
      simp only [step, hp] at h
      obtain ⟨c, -, hx⟩ := Option.map_eq_some_iff.mp h
      cases hx
  | notAllocated hp =>
    cases hp'
    have ho : o ≠ .success := by
      rintro rfl
      simp [step, hp] at h
    simp [failure, hp, o.error_of_ne ho]
  | stopped2 hp hr => cases hp'; simp [failure, hp, hr]
  | error2 hp he => cases hp'; simp [failure, hp, he]
  | @compared m hp _ hf =>
    by_cases hacc : m.action = .MAC ∧ tagsEqual mc l.calculated_mac m.data = true
    · rw [compare, if_pos hacc] at hp'
      cases hp'
    · rw [compare, if_neg hacc] at hp'
      cases hp'
      simp [failure, hp, hf, hacc]
  | full hp _ => simp [pending, hp] at hp'
  | doneFull hp _ => simp [pending, hp] at hp'
  | doneNotQueued hp _ hn => exact absurd (hroom (Or.inr hp)) hn
  | _ => cases hp'

theorem failure_ne (tf : Threefish) (tf_key : ThreefishKey) (mc : MacCtx sk) (l : Local sk) (fl : Flags)
    (inq : Queue) (o : Threefizer.Outcome) :
    failure tf tf_key mc l fl inq o ≠ some .QUEUE_OPERATION_FAIL := by
  unfold failure
  split
  · split
    · decide
    · split <;> decide
  · exact o.error_ne (by decide)
  · split <;> decide
  · split <;> decide
  · split <;> decide
  · decide

end AuthThread

namespace WriteThread

/-- The code the writer is about to set. -/
def pending (l : Local) : Option Error :=
  match l.pc with
  | .fail code => some code
  | .writeFail => some .FILE_IO_FAIL
  | _ => none

/-- The code the writer fails with in its next step. -/
def failure (l : Local) (o : Outcome) : Option Error :=
  match l.pc with
  | .openFile | .writeBytes => o.error .FILE_IO_FAIL
  | _ => none

variable {P : WriteParams} {l l' : Local} {fl fl' : Flags} {inq inq' : Queue} {fs fs' : FileSystem} {o : Outcome}

theorem Moves.sets (h : Moves P l fl inq fs l' fl' inq' fs') : fl'.error = (pending l).or fl.error := by
  cases h with
  | failed hp => simp [pending, hp]
  | writeFailed hp => simp [pending, hp]
  | _ => simp [pending, *]

theorem pending_useChunk (l : Local) : pending (useChunk l) = none := by
  rcases useChunk_pc l with h | h <;> simp [pending, h]

theorem pending_testDone (l : Local) : pending (testDone P l) = none := by
  unfold testDone
  split
  · rfl
  · split
    · rfl
    · exact pending_useChunk l

theorem step_enters {code : Error} (h : step P l fl inq fs o = some (l', fl', inq', fs'))
    (hp' : pending l' = some code) : failure l o = some code := by
  cases moves_of_step h with
  | notOpened hp =>
    cases hp'
    have ho : o ≠ .success := by
      rintro rfl
      simp [step, hp] at h
    simp [failure, hp, o.error_of_ne ho]
  | notWritten k hp hc =>
    cases hp'
    have ho : o ≠ .success := by
      rintro rfl
      simp [step, hp, hc] at h
    simp [failure, hp, o.error_of_ne ho]
  | kept _ _ _ => exact absurd ((pending_testDone _).symm.trans hp') (Option.some_ne_none _).symm
  | nothing _ _ _ => exact absurd ((pending_testDone _).symm.trans hp') (Option.some_ne_none _).symm
  | taken _ _ _ => exact absurd ((pending_testDone _).symm.trans hp') (Option.some_ne_none _).symm
  | notValid _ _ => exact absurd ((pending_useChunk _).symm.trans hp') (Option.some_ne_none _).symm
  | sizeNotReached _ _ => exact absurd ((pending_useChunk _).symm.trans hp') (Option.some_ne_none _).symm
  | _ => cases hp'

theorem failure_ne (l : Local) (o : Outcome) :
    failure l o ≠ some .QUEUE_OPERATION_FAIL := by
  unfold failure
  split
  · exact o.error_ne (by decide)
  · exact o.error_ne (by decide)
  · decide

end WriteThread

/-! ### The pipelines -/

namespace EncryptRun

variable {J : Job}

/-- How the threads set the error word. -/
def errorWord : Lts.ErrorWord (State J) (Thread × Outcome) Thread Error where
  thread a := a.1
  error s := s.fl.error
  pending s t :=
    match t with
    | .read => Reader.pending s.read
    | .crypt => EncryptThread.pending s.crypt
    | .mac => GenerateThread.pending s.mac
    | .write => WriteThread.pending s.write
  failure s a :=
    match a.1 with
    | .read => (reader J).failure s.read a.2
    | .crypt => EncryptThread.failure s.crypt s.fl s.crypto_queue a.2
    | .mac => GenerateThread.failure s.mac s.mac_queue
    | .write => WriteThread.failure s.write a.2

/-- No thread fails with a code when another code is set, or about to be set. -/
abbrev Orderly (s : State J) (a : Thread × Outcome) : Prop := errorWord.Orderly s a

/-- The room a thread has seen in its queue is still there. -/
structure Rooms (s : State J) : Prop where
  read : Reader.Ready s.read s.crypto_queue
  crypt : EncryptThread.Ready s.crypt s.mac_queue
  mac : GenerateThread.Ready s.mac s.write_queue
  tagged : GenerateThread.Tagged s.mac

theorem rooms_init (q : Queue) (fs : FileSystem) : Rooms (State.init J q fs) where
  read := by rintro (h | h) <;> cases h
  crypt := by rintro (h | h) <;> cases h
  mac := by rintro (h | h | h) <;> cases h
  tagged := by rintro (h | h) <;> cases h

theorem Rooms.step {s s' : State J} {t : Thread} (h : Moves s t s') (hR : Rooms s) : Rooms s' := by
  cases h with
  | read h => exact { hR with read := h.ready }
  | crypt h =>
    exact { hR with
      read := hR.read.of_takes h.takes
      crypt := h.ready }
  | mac h =>
    exact { hR with
      crypt := hR.crypt.of_takes h.takes
      mac := h.ready
      tagged := h.tagged hR.tagged }
  | write h =>
    exact { hR with
      mac := hR.mac.of_takes h.takes }

theorem errorWord_lawful : (errorWord (J := J)).Lawful step Rooms where
  sets := by
    rintro s s' ⟨t, o⟩ hR hstep
    cases moves_of_step hstep with
    | read h => exact h.sets
    | crypt h => exact h.sets
    | mac h => exact h.sets hR.mac hR.tagged
    | write h => exact h.sets
  others := by
    rintro s s' ⟨t, o⟩ t' hstep ht
    cases moves_of_step hstep <;> cases t' <;> first | rfl | exact absurd rfl ht
  enters := by
    rintro s s' ⟨t, o⟩ c hR hstep hp
    cases t with
    | read =>
      obtain ⟨⟨l, fl, out⟩, hx, rfl⟩ := Option.map_eq_some_iff.mp hstep
      exact Reader.step_enters hx hR.read hp
    | crypt =>
      obtain ⟨⟨l, fl, inq, out⟩, hx, rfl⟩ := Option.map_eq_some_iff.mp hstep
      exact EncryptThread.step_enters hx hR.crypt hp
    | mac =>
      obtain ⟨⟨l, fl, inq, out⟩, hx, rfl⟩ := Option.map_eq_some_iff.mp hstep
      exact (GenerateThread.moves_of_step hx).enters hR.mac hp
    | write =>
      obtain ⟨⟨l, fl, inq, fs⟩, hx, rfl⟩ := Option.map_eq_some_iff.mp hstep
      exact WriteThread.step_enters hx hp

theorem start_eq {fs : FileSystem} {s₀ : State J} (h : start J fs = some s₀) : ∃ q, s₀ = State.init J q fs := by
  unfold start at h
  split at h
  next q _ => exact ⟨q, (Option.some.inj h).symm⟩
  next => cases h

theorem reachable_rooms {fs : FileSystem} {s₀ s : State J} (h0 : start J fs = some s₀)
    (h : Lts.Reachable step s₀ s) : Rooms s := by
  obtain ⟨q, rfl⟩ := start_eq h0
  exact h.invariant (rooms_init q fs) fun _ _ _ hR _ hstep => hR.step (moves_of_step hstep)

theorem start_agree {fs : FileSystem} {s₀ : State J} (h0 : start J fs = some s₀) : errorWord.Agree s₀ := by
  obtain ⟨q, rfl⟩ := start_eq h0
  rintro c d (hc | ⟨t, hc⟩) -
  · cases hc
  · cases t <;> cases hc

end EncryptRun

namespace DecryptRun

variable {J : Job}

instance : Fintype Thread := ⟨{.read, .mac, .crypt, .write}, fun t => by cases t <;> decide⟩

/-- How the threads set the error word. -/
def errorWord : Lts.ErrorWord (State J) (Thread × Outcome) Thread Error where
  thread a := a.1
  error s := s.fl.error
  pending s t :=
    match t with
    | .read => Reader.pending s.read
    | .mac => AuthThread.pending s.mac
    | .crypt => DecryptThread.pending s.crypt
    | .write => WriteThread.pending s.write
  failure s a :=
    match a.1 with
    | .read => (reader J).failure s.read a.2
    | .mac => AuthThread.failure J.tf J.tf_key J.mac_context s.mac s.fl s.mac_queue a.2
    | .crypt => DecryptThread.failure s.crypt a.2
    | .write => WriteThread.failure s.write a.2

/-- No thread fails with a code when another code is set, or about to be set. -/
abbrev Orderly (s : State J) (a : Thread × Outcome) : Prop := errorWord.Orderly s a

/-- The room a thread has seen in its queue is still there. -/
structure Rooms (s : State J) : Prop where
  read : Reader.Ready s.read s.mac_queue
  mac : AuthThread.Ready s.mac s.crypto_queue
  crypt : DecryptThread.Ready s.crypt s.write_queue

theorem start_rooms (fs : FileSystem) : Rooms (start J fs) where
  read := by rintro (h | h) <;> cases h
  mac := by rintro (h | h) <;> cases h
  crypt := by rintro h; cases h

theorem Rooms.step {s s' : State J} {t : Thread} (h : Moves s t s') (hR : Rooms s) : Rooms s' := by
  cases h with
  | read h => exact { hR with read := h.ready }
  | mac h =>
    exact { hR with
      read := hR.read.of_takes h.takes
      mac := h.ready }
  | crypt h =>
    exact { hR with
      mac := hR.mac.of_takes h.takes
      crypt := h.ready }
  | write h =>
    exact { hR with
      crypt := hR.crypt.of_takes h.takes }

theorem errorWord_lawful : (errorWord (J := J)).Lawful step Rooms where
  sets := by
    rintro s s' ⟨t, o⟩ - hstep
    cases moves_of_step hstep with
    | read h => exact h.sets
    | mac h => exact h.sets
    | crypt h => exact h.sets
    | write h => exact h.sets
  others := by
    rintro s s' ⟨t, o⟩ t' hstep ht
    cases moves_of_step hstep <;> cases t' <;> first | rfl | exact absurd rfl ht
  enters := by
    rintro s s' ⟨t, o⟩ c hR hstep hp
    cases t with
    | read =>
      obtain ⟨⟨l, fl, out⟩, hx, rfl⟩ := Option.map_eq_some_iff.mp hstep
      exact Reader.step_enters hx hR.read hp
    | mac =>
      obtain ⟨⟨l, fl, inq, out⟩, hx, rfl⟩ := Option.map_eq_some_iff.mp hstep
      exact AuthThread.step_enters hx hR.mac hp
    | crypt =>
      obtain ⟨⟨l, fl, inq, out⟩, hx, rfl⟩ := Option.map_eq_some_iff.mp hstep
      exact DecryptThread.step_enters hx hR.crypt hp
    | write =>
      obtain ⟨⟨l, fl, inq, fs⟩, hx, rfl⟩ := Option.map_eq_some_iff.mp hstep
      exact WriteThread.step_enters hx hp

theorem reachable_rooms {fs : FileSystem} {s : State J} (h : Lts.Reachable step (start J fs) s) : Rooms s :=
  h.invariant (start_rooms fs) fun _ _ _ hR _ hstep => hR.step (moves_of_step hstep)

theorem start_agree (fs : FileSystem) : errorWord.Agree (start J fs) := by
  rintro c d (hc | ⟨t, hc⟩) -
  · cases hc
  · cases t <;> cases hc

end DecryptRun

/-- Along steps of which none fails with a code when another is set, or about
to be set, the error word of either pipeline keeps the code it has got, and
gets none but that of the first thread that failed; `runThreefizer` returns it. -/
theorem first_error_reported (J : Job) (fs : FileSystem) :
    (∀ s₀ s s' code, EncryptRun.start J fs = some s₀ → Lts.Reach EncryptRun.step EncryptRun.Orderly s₀ s →
      EncryptRun.errorWord.Names s code → Lts.Reach EncryptRun.step EncryptRun.Orderly s s' →
      (s.fl.error = some code → s'.fl.error = some code) ∧ (∀ e, s'.fl.error = some e → e = code) ∧
        (s.fl.error = some code → ¬ Controller.TooSmall J → J.args.encrypt = true → EncryptRun.Returned s' →
          Controller.Ends J EncryptRun.Orderly DecryptRun.Orderly true fs (some code)
            (Controller.cleanUp J (some code) s'.fs))) ∧
    (∀ s s' code, Lts.Reach DecryptRun.step DecryptRun.Orderly (DecryptRun.start J fs) s →
      DecryptRun.errorWord.Names s code → Lts.Reach DecryptRun.step DecryptRun.Orderly s s' →
      (s.fl.error = some code → s'.fl.error = some code) ∧ (∀ e, s'.fl.error = some e → e = code) ∧
        (s.fl.error = some code → ¬ Controller.TooSmall J → J.args.encrypt = false → DecryptRun.Returned s' →
          Controller.Ends J EncryptRun.Orderly DecryptRun.Orderly true fs (some code)
            (Controller.cleanUp J (some code) s'.fs))) := by
  constructor
  · intro s₀ s s' code h0 hs hname hs'
    have hI : ∀ s, Lts.Reachable EncryptRun.step s₀ s → EncryptRun.Rooms s := fun s => EncryptRun.reachable_rooms h0
    have hkept : s.fl.error = some code → s'.fl.error = some code := fun hc =>
      EncryptRun.errorWord_lawful.error_kept hI (EncryptRun.start_agree h0) hs hc hs'
    refine ⟨hkept, fun e he => ?_, fun hc hbig henc hret => ?_⟩
    · exact EncryptRun.errorWord_lawful.error_of_failed hI (EncryptRun.start_agree h0) hs hname hs' he
    · rw [← hkept hc]
      exact .encrypted hbig rfl henc h0 (hs.trans hs') hret
  · intro s s' code hs hname hs'
    have hI : ∀ s, Lts.Reachable DecryptRun.step (DecryptRun.start J fs) s → DecryptRun.Rooms s :=
      fun s => DecryptRun.reachable_rooms
    have hkept : s.fl.error = some code → s'.fl.error = some code := fun hc =>
      DecryptRun.errorWord_lawful.error_kept hI (DecryptRun.start_agree fs) hs hc hs'
    refine ⟨hkept, fun e he => ?_, fun hc hbig hdec hret => ?_⟩
    · exact DecryptRun.errorWord_lawful.error_of_failed hI (DecryptRun.start_agree fs) hs hname hs' he
    · rw [← hkept hc]
      exact .decrypted hbig rfl hdec (hs.trans hs') hret

namespace DecryptRun

/-- The first write of a run fails after the thread that checks the tag has made `n` steps. -/
def failedWrite (n : ℕ) : List (Thread × Outcome) :=
  steps .read 17 ++ steps .mac n ++ steps .crypt 8 ++ steps .write 7 ++ [(.write, .failure 0)] ++ steps .write 1

theorem sample_starts : ¬ Controller.TooSmall (Skein3fish.sampleJob false Skein3fish.sampleFile) := by
  rintro (⟨h, -⟩ | ⟨-, h⟩)
  · cases h
  · exact absurd h (by decide +kernel)

theorem first_error_reported_sample :
    ∃ s s' : State (Skein3fish.sampleJob false Skein3fish.sampleFile),
      Lts.Reach step Orderly (start _ fun _ => none) s ∧ s.fl.error = some .FILE_IO_FAIL ∧
      Lts.Reach step Orderly s s' ∧ Returned s' ∧ s'.fl.error = some .FILE_IO_FAIL := by
  have hrun : (Lts.run step Orderly (start (Skein3fish.sampleJob false Skein3fish.sampleFile) fun _ => none)
      (failedWrite 24)).any (fun s => decide (s.fl.error = some .FILE_IO_FAIL) &&
        (Lts.run step Orderly s (steps .write 1 ++ steps .crypt 4)).any (fun s' => decide (Returned s'))) = true := by
    decide +kernel
  obtain ⟨s, s', hs, herr, hs', hret⟩ := Lts.Reach.of_runs_any hrun
  have herr := of_decide_eq_true herr
  exact ⟨s, s', hs, herr, hs', of_decide_eq_true hret,
    ((first_error_reported (Skein3fish.sampleJob false Skein3fish.sampleFile) _).2 s s' _ hs (Or.inl herr) hs').1 herr⟩

/-- A write that fails can be reported as a wrong tag. -/
theorem failed_write_reported_as_tag :
    ∃ s s' : State (Skein3fish.sampleJob false Skein3fish.sampleFile),
      Lts.Reachable step (start _ fun _ => none) s ∧ s.fl.error = some .FILE_IO_FAIL ∧
      Lts.Reachable step s s' ∧ s'.fl.error = some .MAC_CHECK_FAIL ∧
      Controller.Ends (Skein3fish.sampleJob false Skein3fish.sampleFile) (fun _ _ => True) (fun _ _ => True) true
        (fun _ => none) (some .MAC_CHECK_FAIL)
        (Controller.cleanUp (Skein3fish.sampleJob false Skein3fish.sampleFile) (some .MAC_CHECK_FAIL) s'.fs) := by
  have hrun : (Lts.run step (fun _ _ => True)
      (start (Skein3fish.sampleJob false Skein3fish.sampleFile) fun _ => none) (failedWrite 14)).any
        (fun s => decide (s.fl.error = some .FILE_IO_FAIL) &&
          (Lts.run step (fun _ _ => True) s (steps .write 1 ++ steps .mac 6 ++ steps .crypt 4)).any
            (fun s' => decide (Returned s' ∧ s'.fl.error = some .MAC_CHECK_FAIL))) = true := by
    decide +kernel
  obtain ⟨s, s', hs, herr, hs', hend⟩ := Lts.Reach.of_runs_any hrun
  obtain ⟨hret, herr'⟩ := of_decide_eq_true hend
  refine ⟨s, s', hs, of_decide_eq_true herr, hs', herr', ?_⟩
  rw [← herr']
  exact .decrypted sample_starts rfl rfl (hs.trans hs') hret

end DecryptRun

end Threefizer
