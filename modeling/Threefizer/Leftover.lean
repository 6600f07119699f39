/-
# What is left in the temp file

The writer alone, with a queue that is fed a given run of chunks and `DONE`
behind them; in decryption the size is announced before the first chunk is fed.
Any error can be set at any time.

The temp file is opened without being cut off, so what it held before the run
stays behind what is written. The file that is renamed holds exactly the bytes
written if and only if it held no more bytes than are written, which are the
bytes of the chunks, in decryption no more than the size (`renames_exactly_iff`).
-/
import Threefizer.WriteThread
import Threefizer.Skein3fish
import Threefizer.Lib.Lts

namespace Threefizer

open Words Queue

namespace Leftover

/-- What is handed to the writer: the chunks before `DONE` and the size of the
plain text, which an encrypting writer does not look at. A decrypting writer
counts the bytes in 64 bits. -/
structure Delivery where
  params : WriteParams
  chunks : List Chunk
  size : ℕ
  handed : ∀ c ∈ chunks, WriteThread.Handed c
  size_lt : size < 2 ^ 64
  fits : params.sized = true → (chunks.flatMap Chunk.bytes).length < 2 ^ 64

variable (D : Delivery)

/-- The size the writer goes by. -/
def Delivery.limit : Option ℕ := if D.params.sized then some D.size else none

/-- The bytes that are to be written. -/
def Delivery.output : List Byte :=
  if D.params.sized then (D.chunks.flatMap Chunk.bytes).take D.size else D.chunks.flatMap Chunk.bytes

/-- How many there are. -/
def Delivery.outputSize : ℕ :=
  if D.params.sized then min D.size (D.chunks.map Chunk.data_size).sum else (D.chunks.map Chunk.data_size).sum

theorem length_bytes : ∀ {cs : List Chunk}, (∀ c ∈ cs, WriteThread.Handed c) →
    (cs.flatMap Chunk.bytes).length = (cs.map Chunk.data_size).sum
  | [], _ => rfl
  | c :: cs, h => by
    rw [List.flatMap_cons, List.length_append, List.map_cons, List.sum_cons, (h c List.mem_cons_self).2.2,
      length_bytes fun c hc => h c (List.mem_cons_of_mem _ hc)]

theorem Delivery.length_output : D.output.length = D.outputSize := by
  unfold output outputSize
  split
  · rw [List.length_take, length_bytes D.handed]
  · exact length_bytes D.handed

theorem Delivery.asyncWrite_output :
    WriteThread.asyncWrite D.limit 0 (D.chunks ++ [doneChunk]) = some D.output := by
  unfold limit output
  split
  next hs =>
    have hfits := D.fits hs
    rw [WriteThread.asyncWrite_take D.size_lt _ _ (Nat.zero_le _) (by omega) D.handed, Nat.sub_zero]
  next => exact WriteThread.asyncWrite_eq _ _ fun c hc => ⟨(D.handed c hc).1, (D.handed c hc).2.1⟩

/-! ### The run -/

/-- Who takes a step: the thread before the writer, the thread that has checked
the header, any thread that fails, the writer. -/
inductive Party
  | feed | size | valid
  | error (code : Error)
  | write (o : Outcome)
  deriving DecidableEq, Repr

/-- What is still to be fed, and the writer with its queue and the files. -/
structure State where
  feed : List Chunk
  fl : Flags
  write : WriteThread.Local
  write_queue : Queue
  fs : FileSystem

def start (fs : FileSystem) (que_size : ℕ) : State where
  feed := D.chunks ++ [doneChunk]
  fl := .init
  write := .init
  write_queue := createQueue que_size
  fs := fs

def step (s : State) : Party → Option State
  | .feed =>
    if D.params.sized = true ∧ s.fl.valid = false then none
    else match s.feed with
      | [] => none
      | c :: cs => (enque c s.write_queue).map fun q => { s with feed := cs, write_queue := q }
  | .size => some { s with fl := { s.fl with new_file_size := D.size } }
  | .valid =>
    if s.fl.new_file_size = D.size then some { s with fl := { s.fl with valid := true } } else none
  | .error code => some { s with fl := { s.fl with error := some code } }
  | .write o => (WriteThread.step D.params s.write s.fl s.write_queue s.fs o).map
      fun (l, fl, inq, fs) => { s with write := l, fl := fl, write_queue := inq, fs := fs }

/-- The branches of `step`. -/
inductive Moves (s : State) : Party → State → Prop
  | feed {c : Chunk} {cs : List Chunk} {q : Queue} : (D.params.sized = true → s.fl.valid = true) →
      s.feed = c :: cs → enque c s.write_queue = some q → Moves s .feed { s with feed := cs, write_queue := q }
  | size : Moves s .size { s with fl := { s.fl with new_file_size := D.size } }
  | valid : s.fl.new_file_size = D.size → Moves s .valid { s with fl := { s.fl with valid := true } }
  | error (code : Error) : Moves s (.error code) { s with fl := { s.fl with error := some code } }
  | write {o : Outcome} {l : WriteThread.Local} {fl : Flags} {inq : Queue} {fs : FileSystem} :
      WriteThread.step D.params s.write s.fl s.write_queue s.fs o = some (l, fl, inq, fs) →
      Moves s (.write o) { s with write := l, fl := fl, write_queue := inq, fs := fs }

theorem moves_of_step {s s' : State} {a : Party} (h : step D s a = some s') : Moves D s a s' := by
  cases a with
  | feed =>
    simp only [step] at h
    split at h
    · cases h
    next hv =>
      split at h
      · cases h
      next c cs hfeed =>
        obtain ⟨q, hq, rfl⟩ := Option.map_eq_some_iff.mp h
        exact .feed (fun hs => by by_contra hf; exact hv ⟨hs, by simpa using hf⟩) hfeed hq
  | size => cases h; exact .size
  | valid =>
    simp only [step] at h
    split at h
    next hn => cases h; exact .valid hn
    next => cases h
  | error code => cases h; exact .error code
  | write o =>
    obtain ⟨⟨l, fl, inq, fs⟩, hx, rfl⟩ := Option.map_eq_some_iff.mp h
    exact .write hx

/-- The writer runs undisturbed. -/
def Live (s : State) : Prop := s.fl.running = true ∧ s.fl.error = none

/-- What holds in every state of every run from the files `old`. -/
structure Inv (old : FileSystem) (s : State) : Prop where
  stopped : s.fl.running = false → s.write.pc = .returned
  told : s.fl.valid = true → s.fl.new_file_size = D.size
  looks : s.write.pc = .testSize → s.fl.valid = true
  fed : D.params.sized = true → s.write_queue.elements ≠ [] ∨ s.write.write_chunk ≠ none → s.fl.valid = true
  flow : Live s → WriteThread.Rest D.limit s.write (s.write_queue.elements ++ s.feed) D.output
  past : WriteThread.Past s.write s.fl → s.write.written = D.output
  files : WriteThread.Files D.params old s.write s.fs

theorem start_inv (fs : FileSystem) (que_size : ℕ) : Inv D fs (start D fs que_size) where
  stopped := nofun
  told := nofun
  looks := nofun
  fed := fun _ h => h.elim (absurd rfl) (absurd rfl)
  flow := fun _ => ⟨_, D.asyncWrite_output, rfl⟩
  past := fun h => h.elim
  files := ⟨rfl, rfl⟩

variable {D}

theorem Inv.writeSized {old : FileSystem} {s : State} (hI : Inv D old s) :
    WriteThread.Sized D.limit s.write s.fl := by
  intro n hn
  unfold Delivery.limit at hn
  split at hn
  next hs =>
    cases hn
    exact ⟨fun h => hI.told (h.elim id hI.looks), fun hc => hI.fed hs (Or.inr hc)⟩
  next => cases hn

/-- `running` is cleared as the last thing. -/
theorem Inv.runs {old : FileSystem} {s : State} (hI : Inv D old s) (hp : s.write.pc ≠ .returned) :
    s.fl.running = true := by
  by_contra hf
  exact hp (hI.stopped (by simpa using hf))

/-- Only the writer's own steps change what it holds. -/
theorem Inv.write {old : FileSystem} {s : State} {o : Outcome} {l : WriteThread.Local} {fl : Flags} {inq : Queue}
    {fs : FileSystem} (hx : WriteThread.step D.params s.write s.fl s.write_queue s.fs o = some (l, fl, inq, fs))
    (hI : Inv D old s) : Inv D old { s with write := l, fl := fl, write_queue := inq, fs := fs } := by
  have h := WriteThread.moves_of_step hx
  have hrun := hI.runs h.not_returned
  obtain ⟨hv, hn⟩ := h.keeps_size
  have hflow : fl.running = true → fl.error = none →
      WriteThread.Rest D.limit l (inq.elements ++ s.feed) D.output := fun hr he =>
    h.rest hr hrun (h.later.2 he) he (by unfold Delivery.limit; cases D.params.sized <;> rfl) hI.writeSized
      (hI.flow ⟨hrun, h.later.2 he⟩)
  exact
    { stopped := h.clears_last hrun
      told := fun h => hn.trans (hI.told (hv.symm.trans h))
      looks := h.sized
      fed := fun hs hc => hv.trans <| hI.fed hs <| by
        rcases hc with hc | hc
        · rcases h.takes with h' | h' <;> rw [h'] at hc
          · exact Or.inl hc
          · exact Or.inl fun h0 => hc (by rw [deque_elements, h0]; rfl)
        · obtain ⟨c, hc⟩ := Option.ne_none_iff_exists'.mp hc
          rcases h.takes_chunk hc with h' | h'
          · exact Or.inr (by rw [h']; exact Option.some_ne_none _)
          · exact Or.inl (List.ne_nil_of_mem h')
      flow := fun h => hflow h.1 h.2
      past := fun hp => by
        rcases h.past hrun hp with ⟨hp', hw⟩ | ⟨rfl, he, -, -⟩
        · exact hw.trans (hI.past hp')
        · exact (hflow hrun he).past hp
      files := h.files hI.files }

theorem Inv.step {old : FileSystem} {s s' : State} {a : Party} (hstep : Leftover.step D s a = some s')
    (hI : Inv D old s) : Inv D old s' := by
  cases moves_of_step D hstep with
  | feed hv hfeed hq =>
    exact { hI with
      fed := fun hs _ => hv hs
      flow := fun h => by
        have := hI.flow h
        rw [hfeed] at this
        rw [(enque_eq_some hq).1, List.append_assoc]
        exact this }
  | size => exact { hI with told := fun _ => rfl }
  | valid hn =>
    exact { hI with
      told := fun _ => hn
      looks := fun _ => rfl
      fed := fun _ _ => rfl }
  | error code =>
    exact { hI with
      flow := fun h => by cases h.2
      past := fun h => hI.past (h.mono nofun) }
  | write hx => exact Inv.write hx hI

/-- The file the writer renames holds exactly the bytes it has written if and
only if what was in the temp file before the run was no longer. -/
theorem renames_exactly_iff (D : Delivery) (fs : FileSystem) (que_size : ℕ) (s s' : State)
    (hs : Lts.Reachable (step D) (start D fs que_size) s) (hp : s.write.pc = .rename)
    (hstep : step D s (.write .success) = some s') :
    s'.fs D.params.destination = some s'.write.written ↔
      ((fs D.params.temp_file_name).getD []).length ≤ D.outputSize := by
  have hI : Inv D fs s := hs.invariant (start_inv D fs que_size) fun _ _ _ hI _ hstep => hI.step hstep
  have hw : s.write.written = D.output := hI.past (by unfold WriteThread.Past; rw [hp]; trivial)
  have hfiles : s.fs = WriteThread.placed D.params fs s.write := by
    have := hI.files
    unfold WriteThread.Files at this
    rwa [hp] at this
  simp only [step, WriteThread.step, hp, Option.map_some, Option.some.injEq] at hstep
  subst hstep
  show s.fs.rename _ _ _ = some s.write.written ↔ _
  rw [FileSystem.rename_dst, hfiles, WriteThread.placed, FileSystem.set_same, Option.some_inj,
    Overlay.overlay_eq_self, hw, D.length_output]

/-- One block that an encrypting writer is to write. -/
def sampleDelivery : Delivery where
  params := ⟨false, [2], [1]⟩
  chunks := [⟨.DECRYPT, [1, 2, 3, 4], 32⟩]
  size := 0
  handed := by simp [WriteThread.Handed, Chunk.bytes]
  size_lt := Nat.two_pow_pos 64
  fits := nofun

/-- A file of `n` bytes at the path of the temp file. -/
def sampleLeftover (n : ℕ) : FileSystem := fun p => if p = [2] then some (List.replicate n 9) else none

theorem renames_exactly_sample :
    ∃ s s', Lts.Reachable (step sampleDelivery) (start sampleDelivery (sampleLeftover 32) QUE_SIZE) s ∧
      s.write.pc = .rename ∧ step sampleDelivery s (.write .success) = some s' ∧
      s'.fs [1] = some s'.write.written := by
  have hrun : (Lts.run (step sampleDelivery) (fun _ _ => True)
      (start sampleDelivery (sampleLeftover 32) QUE_SIZE)
      ([.feed, .feed] ++ List.replicate 10 (.write .success))).any
        (fun s => decide (s.write.pc = .rename)) = true := by decide +kernel
  obtain ⟨s, hs, hp⟩ := Lts.Reach.of_run_any hrun
  have hp := of_decide_eq_true hp
  obtain ⟨s', hstep⟩ : ∃ s', step sampleDelivery s (.write .success) = some s' := by
    simp [step, WriteThread.step, hp]
  exact ⟨s, s', hs, hp, hstep,
    (renames_exactly_iff sampleDelivery (sampleLeftover 32) QUE_SIZE s s' hs hp hstep).mpr (by decide)⟩

/-- After a run with no error the renamed file can end with what was in the temp file. -/
theorem leftover_stays :
    ∃ s, Lts.Reachable (step sampleDelivery) (start sampleDelivery (sampleLeftover 40) QUE_SIZE) s ∧
      s.write.pc = .returned ∧ s.fl.error = none ∧
      s.fs [1] = some (s.write.written ++ List.replicate 8 9) := by
  have hrun : (Lts.run (step sampleDelivery) (fun _ _ => True)
      (start sampleDelivery (sampleLeftover 40) QUE_SIZE)
      ([.feed, .feed] ++ List.replicate 12 (.write .success))).any
        (fun s => decide (s.write.pc = .returned ∧ s.fl.error = none ∧
          s.fs [1] = some (s.write.written ++ List.replicate 8 9))) = true := by decide +kernel
  obtain ⟨s, hs, hp⟩ := Lts.Reach.of_run_any hrun
  exact ⟨s, hs, of_decide_eq_true hp⟩

end Leftover

end Threefizer
