/-
# The readers (`readThread.c`)

`queueFileForEncrypt` and `queueFileForDecrypt` run the same loop: while the
flags allow it and bytes are left, read a chunk, wait until the queue has
room, put the chunk in; then put in a chunk with the action `DONE`. They
differ in the size check at the start and in how the next chunk is cut, which
is what a `Reader` holds.

`Reader.queueFile` is the list of chunks a reader puts out when nothing stops
it and `Reader.step` one step of the thread; `Moves` lists the branches of a
step. `Rest` says what a thread has still to put out: a step of an undisturbed
thread moves it into the queue, chunk by chunk (`Moves.rest`).
-/
import Threefizer.ChunkQueue
import Threefizer.FileIO
import Threefizer.Pad

namespace Threefizer

open Words Queue

/-- The local variables that decide the next chunk. -/
structure ReadState where
  bytes_read : ℕ
  header : Bool
  mac : Bool
  deriving DecidableEq, Repr

/-- The state at the start of the loop. -/
def ReadState.init : ReadState := ⟨0, true, false⟩

/-- What the two readers differ in: the size check, the test for bytes left,
and the next chunk; `next` is `none` when `pad` does not return, because the
length cannot be counted or because it is given a null pointer. -/
structure Reader where
  tooSmall : Bool
  more : ReadState → Bool
  next : ReadState → Option (Chunk × ReadState)

/-- A chunk with the padded bytes of `pad(readBytes(chunk_size, read), ...)`.
The result of `readBytes` is not checked: `pad` copies from a null pointer. -/
def readChunk (file : List Byte) (s : SkeinSize) (action : Action) (bytes_read chunk_size : ℕ) :
    Option Chunk :=
  (readBytes file bytes_read chunk_size).bind fun input =>
  (pad input chunk_size s).bind fun data =>
  (getPadSize chunk_size s).map fun data_size => ⟨action, data, data_size⟩

/-- `queueFileForEncrypt`: as much as possible in each chunk. -/
def encryptReader (file : List Byte) (s : SkeinSize) (maxChunk : ℕ) : Reader where
  tooSmall := file.length == 0
  more st := decide (st.bytes_read < file.length)
  next st :=
    let chunk_size := if file.length - st.bytes_read ≥ maxChunk then maxChunk
      else file.length - st.bytes_read
    (readChunk file s .ENCRYPT st.bytes_read chunk_size).map fun c =>
      (c, { st with bytes_read := st.bytes_read + chunk_size })

/-- `queueFileForDecrypt`: the header, data up to the last block, the last block. -/
def decryptReader (file : List Byte) (s : SkeinSize) (maxChunk : ℕ) : Reader where
  tooSmall := !isGreaterThanThreeBlocks file.length s
  more st := decide (st.bytes_read < file.length)
  next st :=
    let block_byte_size := s.bytes
    let left := sub64 file.length (add64 st.bytes_read block_byte_size)
    let (chunk_size, mac) :=
      if st.header then (2 * block_byte_size, st.mac)
      else if left ≥ maxChunk then (maxChunk, st.mac)
      else if left < maxChunk ∧ left > 0 then (left, st.mac)
      else (block_byte_size, true)
    let action : Action := if st.header then .CHECK_HEADER else if mac then .MAC else .GEN_MAC
    (readChunk file s action st.bytes_read chunk_size).map fun c =>
      (c, ⟨st.bytes_read + chunk_size, false, mac⟩)

namespace Reader

variable (R : Reader)

/-! ### A reader alone -/

/-- The chunks read from `st` on, in at most `fuel` rounds, and `DONE`. -/
def readLoop : ℕ → ReadState → Option (List Chunk)
  | 0, _ => none
  | fuel + 1, st =>
    if R.more st then
      (R.next st).bind fun (c, st') => (readLoop fuel st').map fun cs => c :: cs
    else some [doneChunk]

/-- What a reader puts out when nothing stops it; every round reads a byte, so
`size + 1` rounds are enough. -/
def queueFile (size : ℕ) : Option (List Chunk) :=
  if R.tooSmall then some [] else R.readLoop (size + 1) .init

/-- From `st` on, `cs` are the chunks read. -/
inductive Reads : ReadState → List Chunk → Prop
  | done {st : ReadState} : R.more st = false → Reads st []
  | next {st t : ReadState} {c : Chunk} {cs : List Chunk} :
      R.more st = true → R.next st = some (c, t) → Reads t cs → Reads st (c :: cs)

/-- The chunks read from `st` on, each with the number of file bytes it carries. -/
inductive Carries : ReadState → List (Chunk × ℕ) → Prop
  | done {st : ReadState} : R.more st = false → Carries st []
  | next {st t : ReadState} {c : Chunk} {n : ℕ} {cs : List (Chunk × ℕ)} :
      R.more st = true → R.next st = some (c, t) → t.bytes_read = st.bytes_read + n → Carries t cs →
      Carries st ((c, n) :: cs)

variable {R}

theorem Carries.reads {st : ReadState} {cs : List (Chunk × ℕ)} (h : R.Carries st cs) :
    R.Reads st (cs.map (·.1)) := by
  induction h with
  | done h => exact .done h
  | next hmore hnext _ _ ih => exact .next hmore hnext ih

theorem Carries.unique {st : ReadState} {cs cs' : List (Chunk × ℕ)} (h : R.Carries st cs)
    (h' : R.Carries st cs') : cs = cs' := by
  induction h generalizing cs' with
  | done h =>
    cases h' with
    | done _ => rfl
    | next hmore _ _ _ => exact absurd (h.symm.trans hmore) (by decide)
  | next hmore hnext hread _ ih =>
    cases h' with
    | done h => exact absurd (h.symm.trans hmore) (by decide)
    | next _ hnext' hread' h' =>
      cases hnext.symm.trans hnext'
      rw [ih h', Nat.add_left_cancel (hread.symm.trans hread')]

theorem Reads.readLoop {st : ReadState} {cs : List Chunk} (h : R.Reads st cs) :
    ∀ fuel, cs.length < fuel → R.readLoop fuel st = some (cs ++ [doneChunk]) := by
  induction h with
  | done h =>
    intro fuel hf
    obtain ⟨f, rfl⟩ : ∃ f, fuel = f + 1 := ⟨fuel - 1, by omega⟩
    simp [Reader.readLoop, h]
  | next h1 h2 _ ih =>
    intro fuel hf
    obtain ⟨f, rfl⟩ : ∃ f, fuel = f + 1 := ⟨fuel - 1, by omega⟩
    have hf' : _ < f := Nat.lt_of_succ_lt_succ hf
    simp [Reader.readLoop, h1, h2, ih f hf']

theorem Reads.unique {st : ReadState} {cs cs' : List Chunk} (h : R.Reads st cs) (h' : R.Reads st cs') :
    cs = cs' := by
  have hcs := h.readLoop (max cs.length cs'.length + 1) (by omega)
  have hcs' := h'.readLoop (max cs.length cs'.length + 1) (by omega)
  exact List.append_cancel_right (Option.some.inj (hcs.symm.trans hcs'))

/-! ### The thread -/

variable (R)

/-- Where a reader stands: the next thing it does to what the threads share. -/
inductive Pc
  | start
  | fail (code : Error)
  | testRunning | testError | queueIsFull | enque
  | doneIsFull | queueDone
  | returned
  deriving DecidableEq, Repr

/-- The local variables of a reader. -/
structure Local where
  pc : Pc
  st : ReadState
  data_chunk : Option Chunk
  deriving DecidableEq, Repr

def Local.init : Local := ⟨.start, .init, none⟩

/-- One step of a reader with output queue `out`; the outcome is that of
`openForRead`. A `fail` sets the error word and returns. -/
def step (l : Local) (fl : Flags) (out : Queue) (o : Outcome) : Option (Local × Flags × Queue) :=
  match l.pc with
  | .start =>
    if R.tooSmall then some ({ l with pc := .fail .FILE_TOO_SMALL }, fl, out)
    else match o with
      | .success => some ({ l with pc := .testRunning }, fl, out)
      | .failure _ => some ({ l with pc := .fail .FILE_IO_FAIL }, fl, out)
  | .fail code => some ({ l with pc := .returned }, { fl with error := some code }, out)
  | .testRunning =>
    some ({ l with pc := if fl.running then .testError else .doneIsFull }, fl, out)
  | .testError =>
    if fl.error = none ∧ R.more l.st then
      match l.data_chunk with
      | some _ => some ({ l with pc := .queueIsFull }, fl, out)
      | none => (R.next l.st).map fun (c, st) =>
          ({ pc := .queueIsFull, st := st, data_chunk := some c }, fl, out)
    else some ({ l with pc := .doneIsFull }, fl, out)
  | .queueIsFull => some ({ l with pc := if out.queueIsFull then .queueIsFull else .enque }, fl, out)
  | .enque =>
    if out.locked then none
    else match l.data_chunk.bind fun c => out.enque c with
      | some out' => some ({ l with pc := .testRunning, data_chunk := none }, fl, out')
      | none => some ({ l with pc := .testRunning }, fl, out)
  | .doneIsFull => some ({ l with pc := if out.queueIsFull then .doneIsFull else .queueDone }, fl, out)
  | .queueDone =>
    if out.locked then none
    else match out.queueDone with
      | some out' => some ({ l with pc := .returned }, fl, out')
      -- the error branch returns without unlocking
      | none => some ({ l with pc := .fail .QUEUE_OPERATION_FAIL }, fl, out.abandon)
  | .returned => none

/-- The chunks a reader has still to put out if nothing stops it; nothing is
said once it is about to fail. -/
def Rest (l : Local) (cs : List Chunk) : Prop :=
  match l.pc with
  | .start | .testRunning | .testError =>
    l.data_chunk = none ∧ ∃ ds, R.Reads l.st ds ∧ cs = ds ++ [doneChunk]
  | .queueIsFull | .enque =>
    ∃ c ds, l.data_chunk = some c ∧ R.Reads l.st ds ∧ cs = c :: ds ++ [doneChunk]
  | .fail _ => True
  | .doneIsFull | .queueDone => cs = [doneChunk]
  | .returned => cs = []

/-- A reader that has seen room in its queue, of which it is the only
producer, still has it. -/
def Ready (l : Local) (out : Queue) : Prop := l.pc = .enque ∨ l.pc = .queueDone → out.HasRoom

/-- The branches of `step`. -/
inductive Moves (l : Local) (fl : Flags) (out : Queue) : Local → Flags → Queue → Prop
  | tooSmall : l.pc = .start → R.tooSmall = true →
      Moves l fl out { l with pc := .fail .FILE_TOO_SMALL } fl out
  | opened : l.pc = .start → R.tooSmall = false → Moves l fl out { l with pc := .testRunning } fl out
  | notOpened : l.pc = .start → R.tooSmall = false →
      Moves l fl out { l with pc := .fail .FILE_IO_FAIL } fl out
  | failed {code : Error} : l.pc = .fail code →
      Moves l fl out { l with pc := .returned } { fl with error := some code } out
  | running : l.pc = .testRunning → fl.running = true →
      Moves l fl out { l with pc := .testError } fl out
  | stopped : l.pc = .testRunning → fl.running = false →
      Moves l fl out { l with pc := .doneIsFull } fl out
  | kept {c : Chunk} : l.pc = .testError → fl.error = none → R.more l.st = true →
      l.data_chunk = some c → Moves l fl out { l with pc := .queueIsFull } fl out
  | read {c : Chunk} {st : ReadState} : l.pc = .testError → fl.error = none → R.more l.st = true →
      l.data_chunk = none → R.next l.st = some (c, st) → Moves l fl out ⟨.queueIsFull, st, some c⟩ fl out
  | finished : l.pc = .testError → (fl.error ≠ none ∨ R.more l.st = false) →
      Moves l fl out { l with pc := .doneIsFull } fl out
  | full : l.pc = .queueIsFull → out.queueIsFull = true → Moves l fl out l fl out
  | room : l.pc = .queueIsFull → out.HasRoom → Moves l fl out { l with pc := .enque } fl out
  | queued {c : Chunk} {out' : Queue} : l.pc = .enque → out.locked = false → l.data_chunk = some c →
      out.enque c = some out' → Moves l fl out { l with pc := .testRunning, data_chunk := none } fl out'
  | notQueued : l.pc = .enque → out.locked = false → (l.data_chunk = none ∨ ¬ out.HasRoom) →
      Moves l fl out { l with pc := .testRunning } fl out
  | doneFull : l.pc = .doneIsFull → out.queueIsFull = true → Moves l fl out l fl out
  | doneRoom : l.pc = .doneIsFull → out.HasRoom → Moves l fl out { l with pc := .queueDone } fl out
  | doneQueued {out' : Queue} : l.pc = .queueDone → out.locked = false →
      out.enque doneChunk = some out' → Moves l fl out { l with pc := .returned } fl out'
  | doneNotQueued : l.pc = .queueDone → out.locked = false → ¬ out.HasRoom →
      Moves l fl out { l with pc := .fail .QUEUE_OPERATION_FAIL } fl out.abandon

variable {R} {l l' : Local} {fl fl' : Flags} {out out' : Queue} {o : Outcome}

theorem moves_of_step (h : R.step l fl out o = some (l', fl', out')) :
    R.Moves l fl out l' fl' out' := by
  obtain ⟨pc, st, dc⟩ := l
  cases pc with
  | start =>
    simp only [step] at h
    split at h
    next ht => cases h; exact .tooSmall rfl ht
    next ht =>
      have ht' : R.tooSmall = false := by simpa using ht
      cases o <;> cases h
      · exact .opened rfl ht'
      · exact .notOpened rfl ht'
  | fail code => cases h; exact .failed rfl
  | testRunning =>
    cases h
    cases hr : fl.running with
    | true => exact .running rfl hr
    | false => exact .stopped rfl hr
  | testError =>
    simp only [step] at h
    split at h
    next hm =>
      cases dc with
      | some c => cases h; exact .kept rfl hm.1 hm.2 rfl
      | none =>
        obtain ⟨⟨c, st'⟩, hn, hx⟩ := Option.map_eq_some_iff.mp h
        cases hx; exact .read rfl hm.1 hm.2 rfl hn
    next hm =>
      cases h
      refine .finished rfl ?_
      by_cases he : fl.error = none
      · exact Or.inr (by simpa [he] using hm)
      · exact Or.inl he
  | queueIsFull =>
    simp only [step] at h
    cases hf : out.queueIsFull with
    | true => rw [hf] at h; cases h; exact .full rfl hf
    | false => rw [hf] at h; cases h; exact .room rfl (hasRoom_iff.mpr hf)
  | enque =>
    simp only [step] at h
    split at h
    · cases h
    next hl =>
      have hl' : out.locked = false := by simpa using hl
      split at h
      next hq =>
        obtain ⟨c, hc, hq'⟩ := Option.bind_eq_some_iff.mp hq
        cases h; exact .queued rfl hl' hc hq'
      next hq =>
        cases h; exact .notQueued rfl hl' (bind_enque_eq_none hq)
  | doneIsFull =>
    simp only [step] at h
    cases hf : out.queueIsFull with
    | true => rw [hf] at h; cases h; exact .doneFull rfl hf
    | false => rw [hf] at h; cases h; exact .doneRoom rfl (hasRoom_iff.mpr hf)
  | queueDone =>
    simp only [step] at h
    split at h
    · cases h
    next hl =>
      have hl' : out.locked = false := by simpa using hl
      split at h
      next hq => cases h; exact .doneQueued rfl hl' hq
      next hq => cases h; exact .doneNotQueued rfl hl' fun hr => enque_ne_none hr hq
  | returned => cases h

/-! ### What a step keeps -/

/-- A reader changes no flag but the error word, and never clears that. -/
theorem Moves.flags (h : R.Moves l fl out l' fl' out') :
    fl' = fl ∨ ∃ code, fl' = { fl with error := some code } := by
  cases h <;> first | exact Or.inl rfl | exact Or.inr ⟨_, rfl⟩

/-- An error is set by a thread that is at a `fail`. -/
theorem Moves.keeps_error (h : R.Moves l fl out l' fl' out') (hl : ∀ code, l.pc ≠ .fail code) :
    fl'.error = fl.error := by
  cases h with
  | failed hp => exact absurd hp (hl _)
  | _ => rfl

/-- The next thread only makes room. -/
theorem Ready.of_takes (htakes : out' = out ∨ out' = out.deque) (h : Ready l out) : Ready l out' :=
  fun hp => (h hp).of_takes htakes

theorem Moves.ready (h : R.Moves l fl out l' fl' out') : Ready l' out' := by
  intro hp
  cases h with
  | room _ hr => exact hr
  | doneRoom _ hr => exact hr
  | full h1 _ => simp [h1] at hp
  | doneFull h1 _ => simp [h1] at hp
  | _ => simp at hp

/-- What a reader is about to put into its queue. -/
def put (l : Local) : Option Chunk :=
  match l.pc with
  | .enque => l.data_chunk
  | .queueDone => some doneChunk
  | _ => none

theorem pc_of_put (h : put l ≠ none) : l.pc = .enque ∨ l.pc = .queueDone := by
  obtain ⟨pc, st, dc⟩ := l
  cases pc with
  | enque => exact Or.inl rfl
  | queueDone => exact Or.inr rfl
  | _ => exact absurd rfl h

theorem Moves.produces (h : R.Moves l fl out l' fl' out') : Produces (put l) (put l') out out' := by
  have hlooks : put l' ≠ none → out'.HasRoom := fun hput => h.ready (pc_of_put hput)
  cases h with
  | queued hp _ hc hq => exact .of_enque (by rw [put, hp]; exact hc) hq hlooks
  | notQueued hp _ hn => exact .of_kept (by rw [put, hp]; exact hn) hlooks
  | doneQueued hp _ hq => exact .of_enque (by rw [put, hp]) hq hlooks
  | doneNotQueued hp _ hn => exact .of_abandon (by rw [put, hp]) hn hlooks
  | _ => exact .of_kept (Or.inl (by simp [put, *])) hlooks

theorem step_of_put {c : Chunk} (hput : put l = some c) (hlock : out.locked = false) :
    ∃ x, R.step l fl out .success = some x := by
  obtain ⟨pc, st, dc⟩ := l
  cases pc with
  | enque => cases hq : dc.bind fun c => out.enque c <;> simp [step, hlock, hq]
  | queueDone => cases hq : out.queueDone <;> simp [step, hlock, hq]
  | _ => cases hput

/-- What leads to a `fail`. -/
theorem step_fail {code : Error} (h : R.step l fl out o = some (l', fl', out')) (hr : Ready l out)
    (hf : l'.pc = .fail code) : l.pc = .start ∧ (R.tooSmall = true ∨ o ≠ .success) := by
  cases moves_of_step h with
  | tooSmall hp ht => exact ⟨hp, Or.inl ht⟩
  | notOpened hp ht =>
    refine ⟨hp, Or.inr ?_⟩
    rintro rfl
    simp [step, hp, ht] at h
  | doneNotQueued hp _ hn => exact absurd (hr (Or.inr hp)) hn
  | full hp _ => rw [hp] at hf; cases hf
  | doneFull hp _ => rw [hp] at hf; cases hf
  | _ => cases hf

/-- A reader leaves the front of its queue as it is. -/
theorem Moves.front (h : R.Moves l fl out l' fl' out') {c : Chunk} (hf : out.front = some c) :
    out'.front = some c := by
  cases h with
  | queued _ _ _ hq => rw [Queue.front, (enque_eq_some hq).1, front_eq_some hf]; rfl
  | doneQueued _ _ hq => rw [Queue.front, (enque_eq_some hq).1, front_eq_some hf]; rfl
  | _ => exact hf

/-- While nothing disturbs it, a reader moves what it has still to put out
into its queue and drops nothing. -/
theorem Moves.rest (h : R.Moves l fl out l' fl' out') (hrun : fl.running = true)
    (herr : fl.error = none) (herr' : fl'.error = none) (hroom : Ready l out) {cs : List Chunk}
    (hR : R.Rest l cs) : ∃ cs', R.Rest l' cs' ∧ out'.elements ++ cs' = out.elements ++ cs := by
  obtain ⟨pc, st, dc⟩ := l
  cases h with
  | tooSmall _ _ => exact ⟨cs, trivial, rfl⟩
  | opened hp _ => cases hp; exact ⟨cs, hR, rfl⟩
  | notOpened _ _ => exact ⟨cs, trivial, rfl⟩
  | failed _ => cases herr'
  | running hp _ => cases hp; exact ⟨cs, hR, rfl⟩
  | stopped _ h => exact absurd (hrun.symm.trans h) (by decide)
  | kept hp _ _ hc => cases hp; exact absurd (hc.symm.trans hR.1) nofun
  | read hp _ hmore _ hn =>
    cases hp
    obtain ⟨-, ds, hds, rfl⟩ := hR
    -- the chunk read is the first of those still to be read
    cases hds with
    | done hno => exact absurd (hmore.symm.trans hno) (by decide)
    | next _ hn' hds' =>
      cases hn.symm.trans hn'
      exact ⟨_, ⟨_, _, rfl, hds', rfl⟩, rfl⟩
  | finished hp h =>
    cases hp
    obtain ⟨-, ds, hds, rfl⟩ := hR
    rcases h with h | h
    · exact absurd herr h
    · cases hds with
      | done _ => exact ⟨_, rfl, rfl⟩
      | next hm _ _ => exact absurd (hm.symm.trans h) (by decide)
  | full hp _ => cases hp; exact ⟨cs, hR, rfl⟩
  | room hp _ => cases hp; exact ⟨cs, hR, rfl⟩
  | queued hp _ hc hq =>
    cases hp; cases hc
    obtain ⟨c, ds, hc, hds, rfl⟩ := hR
    cases hc
    exact ⟨ds ++ [doneChunk], ⟨rfl, ds, hds, rfl⟩, by rw [(enque_eq_some hq).1]; simp⟩
  | notQueued hp _ h =>
    cases hp
    obtain ⟨c, ds, hc, hds, rfl⟩ := hR
    rcases h with h | h
    · exact absurd (hc.symm.trans h) nofun
    · exact absurd (hroom (Or.inl rfl)) h
  | doneFull hp _ => cases hp; exact ⟨cs, hR, rfl⟩
  | doneRoom hp _ => cases hp; exact ⟨cs, hR, rfl⟩
  | doneQueued hp _ hq =>
    cases hp
    exact ⟨[], rfl, by rw [(enque_eq_some hq).1, show cs = [doneChunk] from hR]; simp⟩
  | doneNotQueued hp _ h => cases hp; exact absurd (hroom (Or.inr rfl)) h

/-- `DONE` is the last chunk a reader puts out. -/
theorem Rest.last (h : R.Rest l cs) (hf : ∀ code, l.pc ≠ .fail code) (hp : l.pc ≠ .returned) :
    ∃ ds, cs = ds ++ [doneChunk] := by
  obtain ⟨pc, st, dc⟩ := l
  cases pc with
  | start | testRunning | testError =>
    obtain ⟨-, ds, -, rfl⟩ := h
    exact ⟨ds, rfl⟩
  | fail code => exact absurd rfl (hf code)
  | queueIsFull | enque =>
    obtain ⟨c, ds, -, -, rfl⟩ := h
    exact ⟨c :: ds, rfl⟩
  | doneIsFull | queueDone => exact ⟨[], h⟩
  | returned => exact absurd rfl hp

/-- A reader that has not returned can take a step, whether `running` is cleared or not. -/
theorem continues (hlock : out.locked = false) (hts : R.tooSmall = false) (h : R.Rest l cs)
    (hf : ∀ code, l.pc ≠ .fail code) (hp : l.pc ≠ .returned) : ∃ r, R.step l fl out .success = some r := by
  obtain ⟨pc, st, dc⟩ := l
  cases pc with
  | start => simp [step, hts]
  | fail code => exact absurd rfl (hf code)
  | testError =>
    obtain ⟨hdc, ds, hds, -⟩ := h
    cases hdc
    by_cases herr : fl.error = none
    · cases hds with
      | done hno => simp [step, show R.more st = false from hno]
      | next hmore hnext _ =>
        simp [step, herr, show R.more st = true from hmore, show R.next st = some _ from hnext]
    · simp [step, herr]
  | enque => cases hq : dc.bind fun c => out.enque c <;> simp [step, hlock, hq]
  | queueDone => cases hq : out.queueDone <;> simp [step, hlock, hq]
  | returned => exact absurd rfl hp
  | _ => exact ⟨_, rfl⟩

/-! ### What a reader may still put out -/

variable (R) in
/-- The chunk in hand and those still to be read, however the reader ends. -/
def Owes (l : Local) (ds : List Chunk) : Prop := ∃ cs, R.Reads l.st cs ∧ ds = l.data_chunk.toList ++ cs

theorem Moves.not_returned (h : R.Moves l fl out l' fl' out') : l.pc ≠ .returned := by
  cases h <;> simp_all

/-- The reader has not got past its start, and what stops it does so there. -/
def Early (l : Local) : Prop := l.pc = .start ∨ ∃ code, l.pc = .fail code

/-- A reader is at its start, or at a `fail`, only before it puts out anything. -/
theorem Moves.early (h : R.Moves l fl out l' fl' out') (hroom : Ready l out) (he : Early l') :
    Early l ∧ out' = out := by
  cases h with
  | tooSmall hp _ => exact ⟨Or.inl hp, rfl⟩
  | notOpened hp _ => exact ⟨Or.inl hp, rfl⟩
  | full _ _ => exact ⟨he, rfl⟩
  | doneFull _ _ => exact ⟨he, rfl⟩
  | doneNotQueued hp _ hn => exact absurd (hroom (Or.inr hp)) hn
  | _ => rcases he with h | ⟨code, h⟩ <;> cases h

/-- A reader puts out no more than it owes, and `DONE` as the last thing. -/
theorem Moves.owes (h : R.Moves l fl out l' fl' out') {ds : List Chunk} (hO : R.Owes l ds)
    (hds : ∀ d ∈ ds, d.action ≠ .DONE) :
    ∃ ds', R.Owes l' ds' ∧ ds' <:+ ds ∧ out'.data + ds'.length ≤ out.data + ds.length ∧
      (out'.HasDone → out.HasDone ∨ l'.pc = .returned) ∧
      ∀ c ∈ out'.elements, c ∈ out.elements ∨ c ∈ ds ∨ c = doneChunk := by
  obtain ⟨pc, st, dc⟩ := l
  cases h with
  | read hp _ hmore hn hnext =>
    cases hp; cases hn
    obtain ⟨cs, hcs, rfl⟩ := hO
    cases hcs with
    | done hno => exact absurd (hmore.symm.trans hno) (by decide)
    | next _ hnext' hcs' =>
      cases hnext.symm.trans hnext'
      exact ⟨_, ⟨_, hcs', rfl⟩, List.suffix_rfl, le_rfl, Or.inl, fun c hc => Or.inl hc⟩
  | @queued c _ hp _ hc hq =>
    cases hp; cases hc
    obtain ⟨cs, hcs, rfl⟩ := hO
    refine ⟨cs, ⟨cs, hcs, rfl⟩, List.suffix_cons _ _, ?_, fun hd => ?_, fun d hd => ?_⟩
    · have := data_enque_le hq
      simp only [Option.toList_some, List.length_append, List.length_singleton]
      omega
    · rcases hasDone_enque hq hd with h | h
      · exact Or.inl h
      · exact absurd h (hds c (by simp))
    · rw [(enque_eq_some hq).1] at hd
      rcases List.mem_append.mp hd with hd | hd
      · exact Or.inl hd
      · exact Or.inr (Or.inl (by rw [List.mem_singleton.mp hd]; simp))
  | doneQueued hp _ hq =>
    refine ⟨ds, hO, List.suffix_rfl, (data_enque_done hq).symm ▸ le_rfl, fun _ => Or.inr rfl, fun d hd => ?_⟩
    rw [(enque_eq_some hq).1] at hd
    rcases List.mem_append.mp hd with hd | hd
    · exact Or.inl hd
    · exact Or.inr (Or.inr (List.mem_singleton.mp hd))
  | _ => exact ⟨ds, hO, List.suffix_rfl, le_rfl, Or.inl, fun c hc => Or.inl hc⟩

/-- A reader leaves the mutex of its queue free. -/
theorem Moves.opens (h : R.Moves l fl out l' fl' out') (hroom : Ready l out) {n : ℕ} (ho : out.Open n) :
    out'.Open n :=
  h.produces.opens (fun hput => hroom (pc_of_put hput)) ho

/-- The chunks a reader puts out before `DONE` if it sees an error. -/
def late (l : Local) : ℕ :=
  match l.pc with
  | .queueIsFull | .enque => 1
  | _ => 0

/-- After an error a reader puts out no more than the chunk that waits for room. -/
theorem Moves.late (h : R.Moves l fl out l' fl' out') (herr : fl'.error ≠ none) :
    out'.data + Reader.late l' ≤ out.data + Reader.late l := by
  cases h with
  | kept _ he _ _ => exact absurd he herr
  | read _ he _ _ _ => exact absurd he herr
  | full _ _ => exact le_rfl
  | room hp _ => simp [Reader.late, hp]
  | queued hp _ _ hq =>
    have := data_enque_le hq
    simp only [Reader.late, hp]
    omega
  | doneFull _ _ => exact le_rfl
  | doneQueued _ _ hq => rw [data_enque_done hq]; exact Nat.le_add_right _ _
  | _ => exact Nat.le_add_right _ _

/-- How far a reader that sees an error is from its end. -/
def rank (l : Local) : ℕ :=
  match l.pc with
  | .start | .queueIsFull => 7
  | .enque => 6
  | .testRunning => 5
  | .testError => 4
  | .doneIsFull => 3
  | .queueDone => 2
  | .fail _ => 1
  | .returned => 0

variable (R) in
/-- With an error set and room in its queue a reader comes nearer to its end. -/
theorem progress (herr : fl.error ≠ none) (hroom : out.HasRoom) (hlock : out.locked = false)
    (hp : l.pc ≠ .returned) :
    ∃ l' fl' out', R.step l fl out .success = some (l', fl', out') ∧ rank l' < rank l := by
  obtain ⟨pc, st, dc⟩ := l
  have hfull := hasRoom_iff.mp hroom
  cases pc with
  | start => cases ht : R.tooSmall <;> simp [step, ht, rank]
  | fail code => simp [step, rank]
  | testRunning => cases hr : fl.running <;> simp [step, hr, rank]
  | testError => simp [step, herr, rank]
  | queueIsFull => simp [step, hfull, rank]
  | enque => cases hq : dc.bind fun c => out.enque c <;> simp [step, hlock, hq, rank]
  | doneIsFull => simp [step, hfull, rank]
  | queueDone =>
    obtain ⟨out', hq⟩ := enque_of_room doneChunk hroom
    simp [step, hlock, queueDone, hq, rank]
  | returned => exact absurd rfl hp

end Reader

end Threefizer
