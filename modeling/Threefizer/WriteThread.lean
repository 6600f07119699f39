/-
# The writer (`writeThread.c`)

`asyncWrite` opens the temp file, writes the chunks of its queue to it and, if
the error word is zero after that, renames it to its destination and clears
`running`. It leaves the loop on `DONE`, on a flag or an error, and, when it
has the size of the plain text, as soon as so many bytes are written; it never
writes more than that.

`asyncWrite` is what it writes when it is run alone. `Rest` says that what is
written and what is left make up a given content (`Moves.rest`); so a writer
that is past its loop with no error (`Past`) has written all of it.
-/
import Threefizer.ChunkQueue
import Threefizer.FileIO

namespace Threefizer

open Words Queue

/-- The parameters of the writer: whether it is told the size of the plain
text, the temp file and the file it renames it to. -/
structure WriteParams where
  sized : Bool
  temp_file_name : Path
  destination : Path
  deriving DecidableEq, Repr

namespace WriteThread

/-- How much of a chunk is written: no padding. -/
def bytesToWrite (file_size : Option ℕ) (bytes_written : ℕ) (c : Chunk) : ℕ :=
  match file_size with
  | none => c.data_size
  | some n => if add64 bytes_written c.data_size > n then sub64 n bytes_written else c.data_size

/-- The writer has the size of the plain text and has written so much. -/
def reached (file_size : Option ℕ) (bytes_written : ℕ) : Bool :=
  match file_size with
  | none => false
  | some n => decide (bytes_written ≥ n)

/-- `asyncWrite` alone on the chunks of its queue, from `bytes_written` on:
what it writes, none when it does not return. -/
def asyncWrite (file_size : Option ℕ) (bytes_written : ℕ) : List Chunk → Option (List Byte)
  | [] => if reached file_size bytes_written then some [] else none
  | c :: cs =>
    if c.action = .DONE ∨ reached file_size bytes_written = true then some []
    else if c.data = [] then none
    else
      let bytes_to_write := bytesToWrite file_size bytes_written c
      (asyncWrite file_size (add64 bytes_written bytes_to_write) cs).map
        (c.bytes.take bytes_to_write ++ ·)

/-! ### The writer alone -/

/-- A chunk of data as it is handed to the writer: it has data, and its size is
the number of bytes that are there. -/
def Handed (c : Chunk) : Prop := c.action ≠ .DONE ∧ c.data ≠ [] ∧ c.bytes.length = c.data_size

/-- The writer without a size writes all chunks before `DONE`. -/
theorem asyncWrite_eq : ∀ (cs : List Chunk) (n : ℕ), (∀ c ∈ cs, c.action ≠ .DONE ∧ c.data ≠ []) →
    asyncWrite none n (cs ++ [doneChunk]) = some (cs.flatMap Chunk.bytes)
  | [], n, _ => by simp [asyncWrite]
  | c :: cs, n, h => by
    obtain ⟨hd, hne⟩ := h c List.mem_cons_self
    have hcond : ¬ (c.action = .DONE ∨ reached none n = true) := by
      simp [hd, reached]
    have htake : c.bytes.take c.data_size = c.bytes := List.take_of_length_le (by simp [Chunk.bytes])
    rw [List.cons_append, asyncWrite, if_neg hcond, if_neg hne]
    simp only [bytesToWrite, htake]
    rw [asyncWrite_eq cs _ fun c hc => h c (List.mem_cons_of_mem _ hc)]
    rfl

/-- The writer with the size `n` writes the first `n` bytes. -/
theorem asyncWrite_take {n : ℕ} (hn : n < 2 ^ 64) : ∀ (cs : List Chunk) (b : ℕ), b ≤ n →
    b + (cs.flatMap Chunk.bytes).length < 2 ^ 64 → (∀ c ∈ cs, Handed c) →
    asyncWrite (some n) b (cs ++ [doneChunk]) = some ((cs.flatMap Chunk.bytes).take (n - b))
  | [], b, _, _, _ => by simp [asyncWrite]
  | c :: cs, b, hb, h64, h => by
    obtain ⟨hd, hne, hlen⟩ := h c List.mem_cons_self
    rw [List.flatMap_cons, List.length_append] at h64
    rw [List.cons_append, asyncWrite]
    by_cases hr : reached (some n) b = true
    · have hge : b ≥ n := by simpa [reached] using hr
      rw [if_pos (Or.inr hr), show n - b = 0 by omega, List.take_zero]
    · have hlt : b < n := by simpa [reached] using hr
      rw [if_neg (by simp [hd, hr]), if_neg hne]
      have hadd : add64 b c.data_size = b + c.data_size := add64_eq (by omega)
      by_cases hgt : b + c.data_size > n
      · -- the chunk that holds the last byte
        have hbtw : bytesToWrite (some n) b c = n - b := by
          simp only [bytesToWrite, hadd, if_pos hgt]
          exact sub64_eq hb hn
        have hbn : add64 b (n - b) = n := by rw [add64_eq (by omega)]; omega
        simp only [hbtw, hbn]
        rw [asyncWrite_take hn cs n le_rfl (by omega) fun c hc => h c (List.mem_cons_of_mem _ hc)]
        simp only [Nat.sub_self, List.take_zero, Option.map_some, List.append_nil, List.flatMap_cons]
        rw [List.take_append_of_le_length (by omega)]
      · have hbtw : bytesToWrite (some n) b c = c.data_size := by
          simp only [bytesToWrite, hadd, if_neg hgt]
        simp only [hbtw, hadd]
        rw [asyncWrite_take hn cs (b + c.data_size) (by omega) (by omega)
          fun c hc => h c (List.mem_cons_of_mem _ hc)]
        have hsub : n - b - c.bytes.length = n - (b + c.data_size) := by omega
        simp only [Option.map_some, List.flatMap_cons]
        rw [List.take_of_length_le hlen.le, List.take_append, hsub,
          List.take_of_length_le (by omega : c.bytes.length ≤ n - b)]

/-! ### The thread -/

/-- Where the writer stands. -/
inductive Pc
  | openFile
  | fail (code : Error)
  | testRunning | testError | fetch | testValid | testSize
  | bytesToWrite | writeBytes | writeFail
  | lastError | rename | clearRunning
  | returned
  deriving DecidableEq, Repr

/-- The local variables, and the bytes that have reached the file. -/
structure Local where
  pc : Pc
  write_chunk : Option Chunk
  bytes_written : ℕ
  bytes_to_write : ℕ
  written : List Byte
  deriving DecidableEq, Repr

def Local.init : Local := ⟨.openFile, none, 0, 0, []⟩

/-- On to the write, if there is something to write. -/
def useChunk (l : Local) : Local :=
  match l.write_chunk with
  | some c => { l with pc := if c.data = [] then .testRunning else .bytesToWrite }
  | none => { l with pc := .testRunning }

/-- The first of the two tests for termination. -/
def testDone (P : WriteParams) (l : Local) : Local :=
  if ∃ c ∈ l.write_chunk, c.action = .DONE then { l with pc := .lastError }
  else if P.sized then { l with pc := .testValid }
  else useChunk l

/-- One step of the writer; the outcome is that of `open`, `write` or `rename`. -/
def step (P : WriteParams) (l : Local) (fl : Flags) (inq : Queue) (fs : FileSystem) (o : Outcome) :
    Option (Local × Flags × Queue × FileSystem) :=
  match l.pc with
  | .openFile =>
    match o with
    | .success => some ({ l with pc := .testRunning }, fl, inq, fs.openForWrite P.temp_file_name)
    | .failure _ => some ({ l with pc := .fail .FILE_IO_FAIL }, fl, inq, fs)
  | .fail code => some ({ l with pc := .returned }, { fl with error := some code }, inq, fs)
  | .testRunning =>
    some ({ l with pc := if fl.running then .testError else .lastError }, fl, inq, fs)
  | .testError =>
    if fl.error = none then
      match l.write_chunk with
      | none => some ({ l with pc := .fetch }, fl, inq, fs)
      | some _ => some (testDone P l, fl, inq, fs)
    else some ({ l with pc := .lastError }, fl, inq, fs)
  | .fetch =>
    if inq.locked then none
    else match inq.front with
      | none => some (testDone P l, fl, inq, fs)
      | some c => some (testDone P { l with write_chunk := some c }, fl, inq.deque, fs)
  | .testValid => some (if fl.valid then { l with pc := .testSize } else useChunk l, fl, inq, fs)
  | .testSize =>
    some (if l.bytes_written ≥ fl.new_file_size then { l with pc := .lastError } else useChunk l,
      fl, inq, fs)
  | .bytesToWrite => l.write_chunk.map fun c =>
      ({ l with
        pc := .writeBytes
        bytes_to_write :=
          bytesToWrite (if P.sized then some fl.new_file_size else none) l.bytes_written c },
        fl, inq, fs)
  | .writeBytes => l.write_chunk.map fun c =>
      let data := c.bytes.take l.bytes_to_write
      match o with
      | .success =>
        ({ l with
          pc := .testRunning
          write_chunk := none
          bytes_written := add64 l.bytes_written l.bytes_to_write
          written := l.written ++ data },
          fl, inq, fs.write P.temp_file_name l.written.length data)
      | .failure k =>
        ({ l with pc := .writeFail, written := l.written ++ data.take k }, fl, inq,
          fs.write P.temp_file_name l.written.length (data.take k))
  | .writeFail => some ({ l with pc := .lastError }, { fl with error := some .FILE_IO_FAIL }, inq, fs)
  | .lastError => some ({ l with pc := if fl.error = none then .rename else .returned }, fl, inq, fs)
  | .rename =>
    match o with
    | .success =>
      some ({ l with pc := .clearRunning }, fl, inq, fs.rename P.temp_file_name P.destination)
    | .failure _ => some ({ l with pc := .clearRunning }, fl, inq, fs)
  | .clearRunning => some ({ l with pc := .returned }, { fl with running := false }, inq, fs)
  | .returned => none

/-- The bytes written and those still to be written, if nothing stops the
writer and `ins` is what it is given, are `total`; what a failed write has
written is the start of it. -/
def Rest (file_size : Option ℕ) (l : Local) (ins : List Chunk) (total : List Byte) : Prop :=
  match l.pc with
  | .openFile | .testRunning | .testError =>
    ∃ bs, asyncWrite file_size l.bytes_written (l.write_chunk.toList ++ ins) = some bs ∧
      total = l.written ++ bs
  | .fetch => l.write_chunk = none ∧
    ∃ bs, asyncWrite file_size l.bytes_written ins = some bs ∧ total = l.written ++ bs
  | .testValid | .testSize => file_size ≠ none ∧ (∀ c, l.write_chunk = some c → c.action ≠ .DONE) ∧
    ∃ bs, asyncWrite file_size l.bytes_written (l.write_chunk.toList ++ ins) = some bs ∧
      total = l.written ++ bs
  | .bytesToWrite | .writeBytes => ∃ c bs, l.write_chunk = some c ∧
      (l.pc = .writeBytes → l.bytes_to_write = bytesToWrite file_size l.bytes_written c) ∧
      asyncWrite file_size (add64 l.bytes_written (bytesToWrite file_size l.bytes_written c)) ins =
        some bs ∧
      total = l.written ++ (c.bytes.take (bytesToWrite file_size l.bytes_written c) ++ bs)
  | .fail _ | .writeFail => l.written <+: total
  | .lastError | .rename | .clearRunning | .returned => l.written = total

/-- What the writer knows of the size `file_size` in the flags: it has it from
the moment it is told that it is valid, and it has no chunk before. -/
def Sized (file_size : Option ℕ) (l : Local) (fl : Flags) : Prop :=
  ∀ n, file_size = some n →
    (fl.valid = true ∨ l.pc = .testSize → fl.new_file_size = n) ∧
    (l.write_chunk ≠ none → fl.valid = true)

/-- The writer is past its loop and there was no error. -/
def Past (l : Local) (fl : Flags) : Prop :=
  match l.pc with
  | .lastError | .returned => fl.error = none
  | .rename | .clearRunning => True
  | _ => False

/-! ### The moves of the writer -/

/-- The branches of `step`. -/
inductive Moves (P : WriteParams) (l : Local) (fl : Flags) (inq : Queue) (fs : FileSystem) :
    Local → Flags → Queue → FileSystem → Prop
  | opened : l.pc = .openFile → Moves P l fl inq fs { l with pc := .testRunning } fl inq
      (fs.openForWrite P.temp_file_name)
  | notOpened : l.pc = .openFile → Moves P l fl inq fs { l with pc := .fail .FILE_IO_FAIL } fl inq fs
  | failed {code : Error} : l.pc = .fail code →
      Moves P l fl inq fs { l with pc := .returned } { fl with error := some code } inq fs
  | running : l.pc = .testRunning → fl.running = true →
      Moves P l fl inq fs { l with pc := .testError } fl inq fs
  | stopped : l.pc = .testRunning → fl.running = false →
      Moves P l fl inq fs { l with pc := .lastError } fl inq fs
  | empty : l.pc = .testError → fl.error = none → l.write_chunk = none →
      Moves P l fl inq fs { l with pc := .fetch } fl inq fs
  | kept {c : Chunk} : l.pc = .testError → fl.error = none → l.write_chunk = some c →
      Moves P l fl inq fs (testDone P l) fl inq fs
  | error : l.pc = .testError → fl.error ≠ none →
      Moves P l fl inq fs { l with pc := .lastError } fl inq fs
  | nothing : l.pc = .fetch → inq.locked = false → inq.front = none →
      Moves P l fl inq fs (testDone P l) fl inq fs
  | taken {c : Chunk} : l.pc = .fetch → inq.locked = false → inq.front = some c →
      Moves P l fl inq fs (testDone P { l with write_chunk := some c }) fl inq.deque fs
  | valid : l.pc = .testValid → fl.valid = true →
      Moves P l fl inq fs { l with pc := .testSize } fl inq fs
  | notValid : l.pc = .testValid → fl.valid = false → Moves P l fl inq fs (useChunk l) fl inq fs
  | sizeReached : l.pc = .testSize → fl.new_file_size ≤ l.bytes_written →
      Moves P l fl inq fs { l with pc := .lastError } fl inq fs
  | sizeNotReached : l.pc = .testSize → l.bytes_written < fl.new_file_size →
      Moves P l fl inq fs (useChunk l) fl inq fs
  | toWrite {c : Chunk} : l.pc = .bytesToWrite → l.write_chunk = some c →
      Moves P l fl inq fs
        { l with
          pc := .writeBytes
          bytes_to_write :=
            bytesToWrite (if P.sized then some fl.new_file_size else none) l.bytes_written c }
        fl inq fs
  | wrote {c : Chunk} : l.pc = .writeBytes → l.write_chunk = some c →
      Moves P l fl inq fs
        { l with
          pc := .testRunning
          write_chunk := none
          bytes_written := add64 l.bytes_written l.bytes_to_write
          written := l.written ++ c.bytes.take l.bytes_to_write }
        fl inq (fs.write P.temp_file_name l.written.length (c.bytes.take l.bytes_to_write))
  | notWritten {c : Chunk} (k : ℕ) : l.pc = .writeBytes → l.write_chunk = some c →
      Moves P l fl inq fs
        { l with
          pc := .writeFail
          written := l.written ++ (c.bytes.take l.bytes_to_write).take k }
        fl inq (fs.write P.temp_file_name l.written.length ((c.bytes.take l.bytes_to_write).take k))
  | writeFailed : l.pc = .writeFail → Moves P l fl inq fs { l with pc := .lastError }
      { fl with error := some .FILE_IO_FAIL } inq fs
  | good : l.pc = .lastError → fl.error = none →
      Moves P l fl inq fs { l with pc := .rename } fl inq fs
  | bad : l.pc = .lastError → fl.error ≠ none →
      Moves P l fl inq fs { l with pc := .returned } fl inq fs
  | renamed : l.pc = .rename → Moves P l fl inq fs { l with pc := .clearRunning } fl inq
      (fs.rename P.temp_file_name P.destination)
  | notRenamed : l.pc = .rename → Moves P l fl inq fs { l with pc := .clearRunning } fl inq fs
  | cleared : l.pc = .clearRunning →
      Moves P l fl inq fs { l with pc := .returned } { fl with running := false } inq fs

variable {P : WriteParams} {l l' : Local} {fl fl' : Flags} {inq inq' : Queue}
  {fs fs' : FileSystem} {o : Outcome}

theorem moves_of_step (h : step P l fl inq fs o = some (l', fl', inq', fs')) :
    Moves P l fl inq fs l' fl' inq' fs' := by
  obtain ⟨pc, wc, bw, btw, w⟩ := l
  cases pc with
  | openFile =>
    cases o <;> cases h
    · exact .opened rfl
    · exact .notOpened rfl
  | fail code => cases h; exact .failed rfl
  | testRunning =>
    cases h
    cases hr : fl.running with
    | true => exact .running rfl hr
    | false => exact .stopped rfl hr
  | testError =>
    simp only [step] at h
    split at h
    next he =>
      cases wc with
      | none => cases h; exact .empty rfl he rfl
      | some c => cases h; exact .kept rfl he rfl
    next he => cases h; exact .error rfl he
  | fetch =>
    simp only [step] at h
    split at h
    · cases h
    next hl =>
      have hl' : inq.locked = false := by simpa using hl
      split at h <;> cases h
      next hf => exact .nothing rfl hl' hf
      next hf => exact .taken rfl hl' hf
  | testValid =>
    cases h
    cases hv : fl.valid with
    | true => exact .valid rfl hv
    | false => exact .notValid rfl hv
  | testSize =>
    cases h
    by_cases hs : bw ≥ fl.new_file_size
    · rw [if_pos hs]; exact .sizeReached rfl hs
    · rw [if_neg hs]; exact .sizeNotReached rfl (not_le.mp hs)
  | bytesToWrite =>
    obtain ⟨c, hc, hx⟩ := Option.map_eq_some_iff.mp h
    cases hx; exact .toWrite rfl hc
  | writeBytes =>
    obtain ⟨c, hc, hx⟩ := Option.map_eq_some_iff.mp h
    cases o <;> cases hx
    · exact .wrote rfl hc
    · exact .notWritten _ rfl hc
  | writeFail => cases h; exact .writeFailed rfl
  | lastError =>
    cases h
    by_cases he : fl.error = none
    · rw [if_pos he]; exact .good rfl he
    · rw [if_neg he]; exact .bad rfl he
  | rename =>
    cases o <;> cases h
    · exact .renamed rfl
    · exact .notRenamed rfl
  | clearRunning => cases h; exact .cleared rfl
  | returned => cases h

/-! ### What a step keeps -/

/-- The writer sets the error word and clears `running`, nothing else. -/
theorem Moves.flags (h : Moves P l fl inq fs l' fl' inq' fs') :
    fl' = fl ∨ (∃ code, fl' = { fl with error := some code }) ∨
      (l.pc = .clearRunning ∧ l'.pc = .returned ∧ fl' = { fl with running := false }) := by
  cases h with
  | cleared hp => exact Or.inr (Or.inr ⟨hp, rfl, rfl⟩)
  | _ => first | exact Or.inl rfl | exact Or.inr (Or.inl ⟨_, rfl⟩)

/-- It does not touch the size and whether that is valid. -/
theorem Moves.keeps_size (h : Moves P l fl inq fs l' fl' inq' fs') :
    fl'.valid = fl.valid ∧ fl'.new_file_size = fl.new_file_size := by
  rcases h.flags with rfl | ⟨_, rfl⟩ | ⟨-, -, rfl⟩ <;> exact ⟨rfl, rfl⟩

theorem Moves.later (h : Moves P l fl inq fs l' fl' inq' fs') : fl.Later fl' := by
  rcases h.flags with rfl | ⟨_, rfl⟩ | ⟨-, -, rfl⟩
  · exact ⟨id, id⟩
  · exact ⟨id, nofun⟩
  · exact ⟨fun h => absurd h Bool.false_ne_true, id⟩

theorem Moves.not_returned (h : Moves P l fl inq fs l' fl' inq' fs') : l.pc ≠ .returned := by
  cases h <;> simp_all

/-- `running` is cleared as the last thing the writer does. -/
theorem Moves.clears_last (h : Moves P l fl inq fs l' fl' inq' fs') (hrun : fl.running = true)
    (hstop : fl'.running = false) : l'.pc = .returned := by
  rcases h.flags with rfl | ⟨code, rfl⟩ | ⟨-, hp, -⟩
  · exact absurd (hrun.symm.trans hstop) (by decide)
  · exact absurd (hrun.symm.trans hstop) (by decide)
  · exact hp

/-- The writer is about to set an error. -/
def Failing (l : Local) : Prop := (∃ code, l.pc = .fail code) ∨ l.pc = .writeFail

theorem Moves.keeps_error (h : Moves P l fl inq fs l' fl' inq' fs') (hl : ¬ Failing l) :
    fl'.error = fl.error := by
  cases h with
  | failed hp => exact absurd (Or.inl ⟨_, hp⟩) hl
  | writeFailed hp => exact absurd (Or.inr hp) hl
  | _ => rfl

/-- It only takes chunks out of its queue. -/
theorem Moves.takes (h : Moves P l fl inq fs l' fl' inq' fs') : inq' = inq ∨ inq' = inq.deque := by
  cases h <;> first | exact Or.inl rfl | exact Or.inr rfl

@[simp] theorem useChunk_chunk (l : Local) : (useChunk l).write_chunk = l.write_chunk := by
  unfold useChunk
  split <;> rfl

@[simp] theorem testDone_chunk (P : WriteParams) (l : Local) :
    (testDone P l).write_chunk = l.write_chunk := by
  unfold testDone
  split
  · rfl
  · split
    · rfl
    · exact useChunk_chunk l

/-- A writer without input gets no chunk. -/
theorem Moves.no_chunk (h : Moves P l fl inq fs l' fl' inq' fs') (hempty : inq.elements = [])
    (hc : l.write_chunk = none) : inq' = inq ∧ l'.write_chunk = none := by
  cases h with
  | taken _ _ hf => rw [front_eq_some hf] at hempty; cases hempty
  | kept _ _ _ => exact ⟨rfl, (testDone_chunk _ _).trans hc⟩
  | nothing _ _ _ => exact ⟨rfl, (testDone_chunk _ _).trans hc⟩
  | notValid _ _ => exact ⟨rfl, (useChunk_chunk _).trans hc⟩
  | sizeNotReached _ _ => exact ⟨rfl, (useChunk_chunk _).trans hc⟩
  | wrote _ _ => exact ⟨rfl, rfl⟩
  | _ => exact ⟨rfl, hc⟩

/-- A chunk in hand was in hand or in the queue. -/
theorem Moves.takes_chunk (h : Moves P l fl inq fs l' fl' inq' fs') {c : Chunk}
    (hc : l'.write_chunk = some c) : l.write_chunk = some c ∨ c ∈ inq.elements := by
  cases h with
  | taken _ _ hf =>
    rw [testDone_chunk] at hc
    cases hc
    rw [front_eq_some hf]
    exact Or.inr List.mem_cons_self
  | kept _ _ _ => exact Or.inl ((testDone_chunk _ _).symm.trans hc)
  | nothing _ _ _ => exact Or.inl ((testDone_chunk _ _).symm.trans hc)
  | notValid _ _ => exact Or.inl ((useChunk_chunk _).symm.trans hc)
  | sizeNotReached _ _ => exact Or.inl ((useChunk_chunk _).symm.trans hc)
  | wrote _ _ => cases hc
  | _ => exact Or.inl hc

theorem useChunk_pc (l : Local) : (useChunk l).pc = .testRunning ∨ (useChunk l).pc = .bytesToWrite := by
  unfold useChunk
  split
  · split
    · exact Or.inl rfl
    · exact Or.inr rfl
  · exact Or.inl rfl

/-- Only a call that fails makes it fail. -/
theorem step_failing (h : step P l fl inq fs o = some (l', fl', inq', fs')) (hf : Failing l') :
    o ≠ .success := by
  have huse : ∀ l, ¬ Failing (useChunk l) := by
    rintro l (⟨code, h⟩ | h) <;> rcases useChunk_pc l with h' | h' <;> rw [h'] at h <;> cases h
  have hdone : ∀ l, ¬ Failing (testDone P l) := by
    intro l hl
    unfold testDone at hl
    split at hl
    · rcases hl with ⟨code, h⟩ | h <;> cases h
    · split at hl
      · rcases hl with ⟨code, h⟩ | h <;> cases h
      · exact huse l hl
  rintro rfl
  cases moves_of_step h with
  | notOpened hp => simp [step, hp] at h
  | notWritten _ hp hc => simp [step, hp, hc] at h
  | kept _ _ _ => exact hdone _ hf
  | nothing _ _ _ => exact hdone _ hf
  | taken _ _ _ => exact hdone _ hf
  | notValid _ _ => exact huse _ hf
  | sizeNotReached _ _ => exact huse _ hf
  | _ => rcases hf with ⟨code, h⟩ | h <;> cases h

/-- What is written so far is the start of it all. -/
theorem Rest.prefix {file_size : Option ℕ} {ins : List Chunk} {total : List Byte}
    (h : Rest file_size l ins total) : l.written <+: total := by
  obtain ⟨pc, wc, bw, btw, w⟩ := l
  cases pc with
  | openFile | testRunning | testError =>
    obtain ⟨bs, -, rfl⟩ := h
    exact List.prefix_append _ _
  | fetch =>
    obtain ⟨-, bs, -, rfl⟩ := h
    exact List.prefix_append _ _
  | testValid | testSize =>
    obtain ⟨-, -, bs, -, rfl⟩ := h
    exact List.prefix_append _ _
  | bytesToWrite | writeBytes =>
    obtain ⟨c, bs, -, -, -, rfl⟩ := h
    exact List.prefix_append _ _
  | fail code | writeFail => exact h
  | lastError | rename | clearRunning | returned =>
    have h' : w = total := h
    exact h' ▸ List.prefix_rfl

section Rest

variable {file_size : Option ℕ} {ins : List Chunk} {total : List Byte}

/-- Before the chunk is written nothing changes what is left. -/
theorem rest_useChunk {bs : List Byte}
    (hwait : ∀ c, l.write_chunk = some c → c.action ≠ .DONE ∧ reached file_size l.bytes_written = false)
    (hbs : asyncWrite file_size l.bytes_written (l.write_chunk.toList ++ ins) = some bs)
    (ht : total = l.written ++ bs) : Rest file_size (useChunk l) ins total := by
  obtain ⟨pc, wc, bw, btw, w⟩ := l
  cases wc with
  | none => exact ⟨bs, hbs, ht⟩
  | some c =>
    obtain ⟨hd, hr⟩ := hwait c rfl
    have hcond : ¬ (c.action = .DONE ∨ reached file_size bw = true) := by simp [hd, hr]
    simp only [Option.toList_some, List.cons_append, List.nil_append] at hbs
    by_cases hdata : c.data = []
    · rw [asyncWrite, if_neg hcond, if_pos hdata] at hbs
      cases hbs
    · rw [asyncWrite, if_neg hcond, if_neg hdata] at hbs
      obtain ⟨os, hos, rfl⟩ := Option.map_eq_some_iff.mp hbs
      simp only [useChunk, if_neg hdata]
      exact ⟨c, os, rfl, nofun, hos, ht⟩

theorem rest_testDone {bs : List Byte} (hsized : P.sized = file_size.isSome)
    (hbs : asyncWrite file_size l.bytes_written (l.write_chunk.toList ++ ins) = some bs)
    (ht : total = l.written ++ bs) : Rest file_size (testDone P l) ins total := by
  unfold testDone
  split
  next hd =>
    -- the chunk is `DONE`: nothing is left to write
    obtain ⟨pc, wc, bw, btw, w⟩ := l
    obtain ⟨c, rfl, hd⟩ := hd
    simp only [Option.toList_some, List.cons_append, asyncWrite, hd, true_or, if_true] at hbs
    cases hbs
    exact (ht.trans (List.append_nil _)).symm
  next hd =>
    have hd' : ∀ c, l.write_chunk = some c → c.action ≠ .DONE := fun c hc h => hd ⟨c, hc, h⟩
    split
    next hs => exact ⟨Option.isSome_iff_ne_none.mp (hsized ▸ hs), hd', bs, hbs, ht⟩
    next hs =>
      refine rest_useChunk (fun c hc => ⟨hd' c hc, ?_⟩) hbs ht
      cases file_size with
      | none => rfl
      | some n => exact absurd hsized hs

/-- While nothing disturbs it, the writer writes what is left, in order. -/
theorem Moves.rest (h : Moves P l fl inq fs l' fl' inq' fs') (hrun' : fl'.running = true)
    (hrun : fl.running = true) (herr : fl.error = none) (herr' : fl'.error = none)
    (hP : P.sized = file_size.isSome) (hsize : Sized file_size l fl) {x : List Chunk}
    (hR : Rest file_size l (inq.elements ++ x) total) :
    Rest file_size l' (inq'.elements ++ x) total := by
  obtain ⟨pc, wc, bw, btw, w⟩ := l
  cases h with
  | opened hp => cases hp; exact hR
  | notOpened hp =>
    cases hp
    obtain ⟨bs, -, rfl⟩ := hR
    exact List.prefix_append _ _
  | failed _ => cases herr'
  | running hp _ => cases hp; exact hR
  | stopped _ h => exact absurd (hrun.symm.trans h) (by decide)
  | empty hp _ hn => cases hp; cases hn; exact ⟨rfl, hR⟩
  | kept hp _ _ =>
    cases hp
    obtain ⟨bs, hbs, ht⟩ := hR
    exact rest_testDone hP hbs ht
  | error _ h => exact absurd herr h
  | nothing hp _ _ =>
    cases hp
    obtain ⟨hn, bs, hbs, ht⟩ := hR
    cases hn
    exact rest_testDone hP hbs ht
  | taken hp _ hf =>
    cases hp
    obtain ⟨hn, bs, hbs, ht⟩ := hR
    rw [front_eq_some hf] at hbs
    exact rest_testDone hP hbs ht
  | valid hp _ => cases hp; exact hR
  | notValid hp hv =>
    cases hp
    obtain ⟨hn, hd, bs, hbs, ht⟩ := hR
    obtain ⟨n, rfl⟩ := Option.ne_none_iff_exists'.mp hn
    -- without the size there is no chunk yet
    refine rest_useChunk (fun c hc => absurd ((hsize n rfl).2 ?_) (by simp [hv])) hbs ht
    rw [hc]; exact Option.some_ne_none _
  | sizeReached hp hr =>
    cases hp
    obtain ⟨hn, hd, bs, hbs, ht⟩ := hR
    obtain ⟨n, rfl⟩ := Option.ne_none_iff_exists'.mp hn
    rw [(hsize n rfl).1 (Or.inr rfl)] at hr
    have hbs' : bs = [] := by
      have hr' : reached (some n) bw = true := by simpa [reached] using hr
      cases hl : wc.toList ++ (inq.elements ++ x) with
      | nil => rw [hl, asyncWrite, if_pos hr'] at hbs; exact (Option.some.inj hbs).symm
      | cons c cs => rw [hl, asyncWrite, if_pos (Or.inr hr')] at hbs; exact (Option.some.inj hbs).symm
    rw [hbs'] at ht
    exact (ht.trans (List.append_nil _)).symm
  | sizeNotReached hp hr =>
    cases hp
    obtain ⟨hn, hd, bs, hbs, ht⟩ := hR
    obtain ⟨n, rfl⟩ := Option.ne_none_iff_exists'.mp hn
    rw [(hsize n rfl).1 (Or.inr rfl)] at hr
    exact rest_useChunk (fun c hc => ⟨hd c hc, by simpa [reached] using hr⟩) hbs ht
  | toWrite hp hc =>
    cases hp; cases hc
    obtain ⟨c, bs, hc, -, hbs, ht⟩ := hR
    cases hc
    refine ⟨_, bs, rfl, fun _ => ?_, hbs, ht⟩
    cases file_size with
    | none => rw [hP]; rfl
    | some n =>
      have hv := (hsize n rfl).1 (Or.inl ((hsize n rfl).2 (Option.some_ne_none _)))
      rw [hP, hv]; rfl
  | wrote hp hc =>
    cases hp; cases hc
    obtain ⟨c, bs, hc, hw, hbs, rfl⟩ := hR
    cases hc
    rw [← hw rfl] at hbs ⊢
    exact ⟨bs, hbs, (List.append_assoc _ _ _).symm⟩
  | notWritten k hp hc =>
    cases hp; cases hc
    obtain ⟨c, bs, hc, hw, hbs, rfl⟩ := hR
    cases hc
    rw [← hw rfl]
    exact (List.prefix_append_right_inj _).mpr ((List.take_prefix _ _).trans (List.prefix_append _ _))
  | writeFailed _ => cases herr'
  | good hp _ => cases hp; exact hR
  | bad _ h => exact absurd herr h
  | renamed hp => cases hp; exact hR
  | notRenamed hp => cases hp; exact hR
  | cleared _ => cases hrun'

theorem Rest.past (h : Rest file_size l ins total) (hpast : Past l fl) : l.written = total := by
  obtain ⟨pc, wc, bw, btw, w⟩ := l
  cases pc with
  | lastError | returned | rename | clearRunning => exact h
  | _ => exact hpast.elim

end Rest

theorem Past.mono (h : Past l fl') (hfl : fl'.error = none → fl.error = none) : Past l fl := by
  obtain ⟨pc, wc, bw, btw, w⟩ := l
  cases pc with
  | lastError | returned => exact hfl h
  | rename | clearRunning => trivial
  | _ => exact h.elim

/-- A writer past its loop with no error sets none. -/
theorem Past.not_failing (h : Past l fl) : ¬ Failing l := by
  rintro (⟨code, hp⟩ | hp) <;> unfold Past at h <;> rw [hp] at h <;> exact h

theorem useChunk_past (l : Local) : ¬ Past (useChunk l) fl := by
  unfold Past
  rcases useChunk_pc l with h | h <;> rw [h] <;> exact id

/-- Undisturbed, the writer leaves its loop on `DONE`, which it then holds. -/
theorem testDone_past (h : Past (testDone P l) fl) :
    fl.error = none ∧ (testDone P l).pc = .lastError ∧
      ∃ c, (testDone P l).write_chunk = some c ∧ c.action = .DONE := by
  by_cases hd : ∃ c ∈ l.write_chunk, c.action = .DONE
  · have heq : testDone P l = { l with pc := .lastError } := if_pos hd
    obtain ⟨c, hc, hd⟩ := hd
    rw [heq] at h ⊢
    exact ⟨h, rfl, c, hc, hd⟩
  · rw [testDone, if_neg hd] at h
    split at h
    · exact h.elim
    · exact absurd h (useChunk_past l)

/-- The size is looked at once it is valid. -/
theorem Moves.sized (h : Moves P l fl inq fs l' fl' inq' fs') (hp : l'.pc = .testSize) :
    fl'.valid = true := by
  have hdone : ∀ l, (testDone P l).pc ≠ .testSize := by
    intro l
    unfold testDone
    split
    · nofun
    · split
      · nofun
      · rcases useChunk_pc l with h | h <;> rw [h] <;> nofun
  cases h with
  | valid _ hv => exact hv
  | kept _ _ _ => exact absurd hp (hdone _)
  | nothing _ _ _ => exact absurd hp (hdone _)
  | taken _ _ _ => exact absurd hp (hdone _)
  | notValid _ _ => rcases useChunk_pc l with h | h <;> rw [h] at hp <;> cases hp
  | sizeNotReached _ _ => rcases useChunk_pc l with h | h <;> rw [h] at hp <;> cases hp
  | _ => cases hp

/-- A writer past its loop was so before, or has just left the loop, on `DONE`
or because it has written enough. -/
theorem Moves.past (h : Moves P l fl inq fs l' fl' inq' fs') (hrun : fl.running = true)
    (hpast : Past l' fl') :
    (Past l fl ∧ l'.written = l.written) ∨
      (fl' = fl ∧ fl.error = none ∧ l'.pc = .lastError ∧
        ((∃ c, l'.write_chunk = some c ∧ c.action = .DONE) ∨
          (l.pc = .testSize ∧ fl.new_file_size ≤ l.bytes_written))) := by
  obtain ⟨pc, wc, bw, btw, w⟩ := l
  cases h with
  | failed _ => cases hpast
  | stopped _ hr => exact absurd (hrun.symm.trans hr) (by decide)
  | kept _ _ _ =>
    obtain ⟨he, hp, hd⟩ := testDone_past hpast
    exact Or.inr ⟨rfl, he, hp, Or.inl hd⟩
  | error _ he => exact absurd hpast he
  | nothing _ _ _ =>
    obtain ⟨he, hp, hd⟩ := testDone_past hpast
    exact Or.inr ⟨rfl, he, hp, Or.inl hd⟩
  | taken _ _ _ =>
    obtain ⟨he, hp, hd⟩ := testDone_past hpast
    exact Or.inr ⟨rfl, he, hp, Or.inl hd⟩
  | notValid _ _ => exact absurd hpast (useChunk_past _)
  | sizeReached hp hr => exact Or.inr ⟨rfl, hpast, rfl, Or.inr ⟨hp, hr⟩⟩
  | sizeNotReached _ _ => exact absurd hpast (useChunk_past _)
  | writeFailed _ => cases hpast
  | good hp he => cases hp; exact Or.inl ⟨he, rfl⟩
  | bad hp he => cases hp; exact absurd hpast he
  | renamed hp => cases hp; exact Or.inl ⟨trivial, rfl⟩
  | notRenamed hp => cases hp; exact Or.inl ⟨trivial, rfl⟩
  | cleared hp => cases hp; exact Or.inl ⟨trivial, rfl⟩
  | _ => exact hpast.elim

/-! ### The files -/

/-- The temp file has what is written over what was in it; `old` are the files
when the writer starts. -/
def placed (P : WriteParams) (old : FileSystem) (l : Local) : FileSystem :=
  old.set P.temp_file_name (some (Overlay.overlay ((old P.temp_file_name).getD []) l.written))

/-- The files up to the rename. -/
def Files (P : WriteParams) (old : FileSystem) (l : Local) (fs : FileSystem) : Prop :=
  match l.pc with
  | .openFile => fs = old ∧ l.written = []
  | .fail _ => fs = old
  | .clearRunning | .returned => True
  | _ => fs = placed P old l

theorem placed_write (P : WriteParams) (old : FileSystem) (l : Local) (data : List Byte) :
    (placed P old l).write P.temp_file_name l.written.length data =
      placed P old { l with written := l.written ++ data } := by
  simp only [placed, FileSystem.write, FileSystem.set_same, Option.getD_some, FileSystem.set_set,
    Overlay.writeAt_overlay]

theorem files_useChunk {old : FileSystem} (h : fs = placed P old l) : Files P old (useChunk l) fs := by
  obtain ⟨pc, wc, bw, btw, w⟩ := l
  unfold useChunk
  split
  · split <;> exact h
  · exact h

theorem files_testDone {old : FileSystem} (h : fs = placed P old l) : Files P old (testDone P l) fs := by
  unfold testDone
  split
  · exact h
  · split
    · exact h
    · exact files_useChunk h

/-- The writer touches no file but the temp file, and that only where it writes. -/
theorem Moves.files {old : FileSystem} (h : Moves P l fl inq fs l' fl' inq' fs') (hF : Files P old l fs) :
    Files P old l' fs' := by
  obtain ⟨pc, wc, bw, btw, w⟩ := l
  cases h with
  | opened hp =>
    cases hp
    obtain ⟨rfl, rfl⟩ := hF
    show _ = placed P fs _
    rw [placed, Overlay.overlay_nil]
    rfl
  | notOpened hp => cases hp; exact hF.1
  | running hp _ => cases hp; exact hF
  | stopped hp _ => cases hp; exact hF
  | empty hp _ _ => cases hp; exact hF
  | kept hp _ _ => cases hp; exact files_testDone hF
  | error hp _ => cases hp; exact hF
  | nothing hp _ _ => cases hp; exact files_testDone hF
  | taken hp _ _ => cases hp; exact files_testDone hF
  | valid hp _ => cases hp; exact hF
  | notValid hp _ => cases hp; exact files_useChunk hF
  | sizeReached hp _ => cases hp; exact hF
  | sizeNotReached hp _ => cases hp; exact files_useChunk hF
  | toWrite hp _ => cases hp; exact hF
  | wrote hp hc =>
    cases hp
    rw [show fs = placed P old _ from hF, placed_write]
    rfl
  | notWritten k hp hc =>
    cases hp
    rw [show fs = placed P old _ from hF, placed_write]
    rfl
  | writeFailed hp => cases hp; exact hF
  | good hp _ => cases hp; exact hF
  | _ => trivial

/-- The files once the temp file is renamed. -/
def renamed (P : WriteParams) (old : FileSystem) (l : Local) : FileSystem :=
  (placed P old l).rename P.temp_file_name P.destination

/-- The files after the rename, when that does not fail. -/
def Ended (P : WriteParams) (old : FileSystem) (l : Local) (fl : Flags) (fs : FileSystem) : Prop :=
  match l.pc with
  | .clearRunning => fs = renamed P old l
  | .returned => fl.error = none → fs = renamed P old l
  | _ => True

theorem Ended.mono {old : FileSystem} (h : Ended P old l fl fs) (herr : fl'.error = none → fl.error = none) :
    Ended P old l fl' fs := by
  obtain ⟨pc, wc, bw, btw, w⟩ := l
  cases pc with
  | clearRunning => exact h
  | returned => exact fun he => h (herr he)
  | _ => trivial

theorem testDone_pc (P : WriteParams) (l : Local) :
    (testDone P l).pc = .lastError ∨ (testDone P l).pc = .testValid ∨ testDone P l = useChunk l := by
  unfold testDone
  split
  · exact Or.inl rfl
  · split
    · exact Or.inr (Or.inl rfl)
    · exact Or.inr (Or.inr rfl)

/-- A step inside the loop does not lead behind the rename. -/
theorem ended_useChunk {old : FileSystem} : Ended P old (useChunk l) fl fs := by
  unfold Ended
  rcases useChunk_pc l with h | h <;> rw [h] <;> trivial

theorem ended_testDone {old : FileSystem} : Ended P old (testDone P l) fl fs := by
  rcases testDone_pc P l with h | h | h
  · unfold Ended; rw [h]; trivial
  · unfold Ended; rw [h]; trivial
  · rw [h]; exact ended_useChunk

theorem step_ended {old : FileSystem} (h : step P l fl inq fs o = some (l', fl', inq', fs'))
    (ho : l.pc = .rename → o = .success) (hF : Files P old l fs) (hE : Ended P old l fl fs) :
    Ended P old l' fl' fs' := by
  by_cases hp : l.pc = .rename
  · have hfs : fs = placed P old l := by unfold Files at hF; rwa [hp] at hF
    simp only [step, hp, ho hp, Option.some.injEq, Prod.mk.injEq] at h
    obtain ⟨rfl, -, -, rfl⟩ := h
    show fs.rename _ _ = renamed P old _
    rw [hfs]
    rfl
  · obtain ⟨pc, wc, bw, btw, w⟩ := l
    cases moves_of_step h with
    | failed _ => exact nofun
    | kept _ _ _ => exact ended_testDone
    | nothing _ _ _ => exact ended_testDone
    | taken _ _ _ => exact ended_testDone
    | notValid _ _ => exact ended_useChunk
    | sizeNotReached _ _ => exact ended_useChunk
    | bad _ he => exact fun h => absurd h he
    | renamed hp' => exact absurd hp' hp
    | notRenamed hp' => exact absurd hp' hp
    | cleared hp' => cases hp'; exact fun _ => hE
    | _ => trivial

/-- A writer that returns with an error has not renamed the file, if there is
no error once it has. -/
theorem Moves.original {old : FileSystem} (h : Moves P l fl inq fs l' fl' inq' fs') (hF : Files P old l fs)
    (hcalm : l.pc = .clearRunning → fl.error = none) (hp : l'.pc = .returned) (herr : fl'.error ≠ none) :
    fs' = old ∨ fs' = placed P old l' := by
  have huse : ∀ l, (useChunk l).pc ≠ .returned := fun l => by
    rcases useChunk_pc l with h | h <;> rw [h] <;> nofun
  have hdone : ∀ l, (testDone P l).pc ≠ .returned := fun l => by
    rcases testDone_pc P l with h | h | h
    · rw [h]; nofun
    · rw [h]; nofun
    · rw [h]; exact huse l
  obtain ⟨pc, wc, bw, btw, w⟩ := l
  cases h with
  | failed hp' => cases hp'; exact Or.inl hF
  | kept _ _ _ => exact absurd hp (hdone _)
  | nothing _ _ _ => exact absurd hp (hdone _)
  | taken _ _ _ => exact absurd hp (hdone _)
  | notValid _ _ => exact absurd hp (huse _)
  | sizeNotReached _ _ => exact absurd hp (huse _)
  | bad hp' _ => cases hp'; exact Or.inr hF
  | cleared hp' => exact absurd (hcalm hp') herr
  | _ => cases hp

/-- No other file is touched. -/
theorem Moves.frame (h : Moves P l fl inq fs l' fl' inq' fs') {q : Path} (ht : q ≠ P.temp_file_name)
    (hd : q ≠ P.destination) : fs' q = fs q := by
  cases h with
  | opened _ => exact FileSystem.set_other _ _ ht
  | wrote _ _ => exact FileSystem.set_other _ _ ht
  | notWritten _ _ _ => exact FileSystem.set_other _ _ ht
  | renamed _ => exact FileSystem.rename_other _ ht hd
  | _ => rfl

/-! ### The way to the end -/

/-- A chunk that is written is in hand. -/
def Holding (l : Local) : Prop := l.pc = .bytesToWrite ∨ l.pc = .writeBytes → l.write_chunk ≠ none

theorem holding_useChunk (l : Local) : Holding (useChunk l) := by
  intro hp
  rw [useChunk_chunk]
  intro hn
  rw [useChunk, hn] at hp
  simp at hp

theorem holding_testDone (P : WriteParams) (l : Local) : Holding (testDone P l) := by
  rcases testDone_pc P l with h | h | h
  · intro hp; simp [h] at hp
  · intro hp; simp [h] at hp
  · rw [h]; exact holding_useChunk l

theorem Moves.holding (h : Moves P l fl inq fs l' fl' inq' fs') : Holding l' := by
  cases h with
  | kept _ _ _ => exact holding_testDone _ _
  | nothing _ _ _ => exact holding_testDone _ _
  | taken _ _ _ => exact holding_testDone _ _
  | notValid _ _ => exact holding_useChunk _
  | sizeNotReached _ _ => exact holding_useChunk _
  | toWrite _ hc => exact fun _ h => absurd (hc.symm.trans h) nofun
  | _ => intro hp; simp at hp

/-- How far a writer that sees an error is from its end. -/
def rank (l : Local) : ℕ :=
  match l.pc with
  | .openFile | .fetch => 12
  | .testValid => 11
  | .testSize => 10
  | .bytesToWrite => 9
  | .writeBytes => 8
  | .testRunning => 7
  | .testError => 6
  | .writeFail => 5
  | .lastError => 4
  | .rename => 3
  | .clearRunning => 2
  | .fail _ => 1
  | .returned => 0

theorem rank_useChunk (l : Local) : rank (useChunk l) < 10 := by
  unfold rank
  rcases useChunk_pc l with h | h <;> rw [h] <;> decide

theorem rank_testDone (P : WriteParams) (l : Local) : rank (testDone P l) < 12 := by
  rcases testDone_pc P l with h | h | h
  · unfold rank; rw [h]; decide
  · unfold rank; rw [h]; decide
  · have := rank_useChunk l; rw [h]; omega

variable (P fs) in
/-- With an error set the writer comes nearer to its end. -/
theorem progress (herr : fl.error ≠ none) (hin : inq.locked = false) (hH : Holding l) (hp : l.pc ≠ .returned) :
    ∃ l' fl' inq' fs', step P l fl inq fs .success = some (l', fl', inq', fs') ∧ rank l' < rank l := by
  obtain ⟨pc, wc, bw, btw, w⟩ := l
  cases pc with
  | openFile => simp [step, rank]
  | fail code => simp [step, rank]
  | testRunning => cases hr : fl.running <;> simp [step, hr, rank]
  | testError => simp [step, herr, rank]
  | fetch =>
    cases hf : inq.front with
    | none => simpa [step, hin, hf, rank] using rank_testDone P _
    | some c => simpa [step, hin, hf, rank] using rank_testDone P _
  | testValid =>
    have := rank_useChunk ⟨.testValid, wc, bw, btw, w⟩
    cases hv : fl.valid with
    | true => simp [step, hv, rank]
    | false => exact ⟨_, _, _, _, by simp only [step, hv]; rfl, lt_trans this (Nat.lt_succ_self 10)⟩
  | testSize =>
    have := rank_useChunk ⟨.testSize, wc, bw, btw, w⟩
    by_cases hn : bw ≥ fl.new_file_size
    · simp [step, hn, rank]
    · exact ⟨_, _, _, _, by simp only [step, if_neg hn]; rfl, this⟩
  | bytesToWrite =>
    obtain ⟨c, hc⟩ := Option.ne_none_iff_exists'.mp (hH (Or.inl rfl))
    cases hc
    simp [step, rank]
  | writeBytes =>
    obtain ⟨c, hc⟩ := Option.ne_none_iff_exists'.mp (hH (Or.inr rfl))
    cases hc
    simp [step, rank]
  | writeFail => simp [step, rank]
  | lastError => simp [step, herr, rank]
  | rename => simp [step, rank]
  | clearRunning => simp [step, rank]
  | returned => exact absurd rfl hp

end WriteThread

end Threefizer
