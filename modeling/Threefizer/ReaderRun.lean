/-
# A reader and its queue, to the end

A reader puts chunks into its queue, someone takes them out, and the other
threads may set the shared words as long as `running` stays set and the error
word stays clear. There is room in the queue whenever the reader waits for it.

* `step_fuel`: every step of the reader brings it nearer to its end, and no
  step of the others takes it away from there;
* `Inv.continues`, `Inv.ends`: before its end the reader can take a step, and
  if the queue can hold a chunk the end can be reached;
* `Inv.returned`: at its end what was taken out and what is still queued is the
  plan and `DONE`.

For `queueFileForDecrypt` the plan is a partition of the file
(`decrypt_partitions`): the header, the data in pieces of at most
`MAX_CHUNK_SIZE` bytes, the last block. The size left for data is computed in
unsigned arithmetic, which is exact because a reader that has bytes left has
the last block left (`Cut`).
-/
import Threefizer.ReadPlan
import Threefizer.Skein3fish
import Threefizer.Lib.Lts

namespace Threefizer

open Words Queue

namespace ReaderRun

/-- The reader, the thread that takes out of its queue, and the other threads,
with what they leave in the shared words. -/
inductive Party
  | reader | consumer | others (fl : Flags)
  deriving DecidableEq, Repr

/-- The reader, the words and the queue it shares, and what was taken out. -/
structure State where
  read : Reader.Local
  fl : Flags
  out : Queue
  taken : List Chunk

/-- `createQueue` for the reader. -/
def start (que_size : ℕ) : State := ⟨.init, .init, createQueue que_size, []⟩

/-- The file can be opened; the consumer waits for a chunk. -/
def step (R : Reader) (s : State) : Party → Option State
  | .reader => (R.step s.read s.fl s.out .success).map fun (l, fl, out) =>
      { s with read := l, fl := fl, out := out }
  | .consumer => s.out.front.map fun c => { s with out := s.out.deque, taken := s.taken ++ [c] }
  | .others fl => some { s with fl := fl }

/-- The chunks that have left the reader. -/
def State.put (s : State) : List Chunk := s.taken ++ s.out.elements

/-- The reader waits for room in its queue. -/
def Waiting (s : State) : Prop := s.read.pc = .queueIsFull ∨ s.read.pc = .doneIsFull

/-- There is room when the reader waits for it, `running` stays set and the
error word clear. -/
def Undisturbed (s : State) : Party → Prop
  | .reader => Waiting s → s.out.HasRoom
  | .consumer => True
  | .others fl => fl.running = true ∧ fl.error = none

instance (s : State) (a : Party) : Decidable (Undisturbed s a) := by
  unfold Undisturbed Waiting HasRoom
  cases a <;> infer_instance

variable {R : Reader} {plan : List Chunk} {que_size : ℕ} {I : ReadState → Prop} {s s' : State} {a : Party}

/-! ### The invariant -/

/-- Nothing has gone wrong, and what has been put out and what is still to be
put out is the plan and `DONE`; `I` holds of the variables of the loop. -/
structure Inv (R : Reader) (plan : List Chunk) (que_size : ℕ) (I : ReadState → Prop) (s : State) : Prop where
  running : s.fl.running = true
  calm : s.fl.error = none
  opened : s.out.Open que_size
  ready : Reader.Ready s.read s.out
  sound : ∀ code, s.read.pc ≠ .fail code
  rest : ∃ cs, R.Rest s.read cs ∧ s.put ++ cs = plan ++ [doneChunk]
  vars : I s.read.st

theorem start_inv (hplan : R.Reads .init plan) (hI : I .init) :
    Inv R plan que_size I (start que_size) where
  running := rfl
  calm := rfl
  opened := ⟨rfl, rfl⟩
  ready := fun h => by rcases h with h | h <;> cases h
  sound := nofun
  rest := ⟨plan ++ [doneChunk], ⟨rfl, plan, hplan, rfl⟩, rfl⟩
  vars := hI

/-- The variables change only when a chunk is read. -/
theorem vars_of_moves {l l' : Reader.Local} {fl fl' : Flags} {out out' : Queue}
    (hnext : ∀ st c st', R.more st = true → R.next st = some (c, st') → I st → I st')
    (h : R.Moves l fl out l' fl' out') (hI : I l.st) : I l'.st := by
  cases h with
  | read _ _ hmore _ hn => exact hnext _ _ _ hmore hn hI
  | _ => exact hI

theorem Inv.step (hts : R.tooSmall = false)
    (hnext : ∀ st c st', R.more st = true → R.next st = some (c, st') → I st → I st')
    (hI : Inv R plan que_size I s) (hok : Undisturbed s a) (h : ReaderRun.step R s a = some s') :
    Inv R plan que_size I s' := by
  cases a with
  | reader =>
    obtain ⟨⟨l, fl, out⟩, hx, rfl⟩ := Option.map_eq_some_iff.mp h
    have hm := Reader.moves_of_step hx
    have herr : fl.error = none := (hm.keeps_error hI.sound).trans hI.calm
    obtain ⟨cs, hcs, hput⟩ := hI.rest
    obtain ⟨cs', hcs', hout⟩ := hm.rest hI.running hI.calm herr hI.ready hcs
    have hput' : s.taken ++ out.elements ++ cs' = plan ++ [doneChunk] :=
      calc s.taken ++ out.elements ++ cs'
          = s.taken ++ (s.out.elements ++ cs) := by rw [List.append_assoc, hout]
        _ = s.put ++ cs := (List.append_assoc _ _ _).symm
        _ = plan ++ [doneChunk] := hput
    exact
      { running := by rcases hm.flags with rfl | ⟨code, rfl⟩ <;> exact hI.running
        calm := herr
        opened := hm.opens hI.ready hI.opened
        ready := hm.ready
        sound := fun code hf => by
          rcases (Reader.step_fail hx hI.ready hf).2 with ht | ho
          · rw [hts] at ht; cases ht
          · exact ho rfl
        rest := ⟨cs', hcs', hput'⟩
        vars := vars_of_moves hnext hm hI.vars }
  | consumer =>
    obtain ⟨c, hc, rfl⟩ := Option.map_eq_some_iff.mp h
    obtain ⟨cs, hcs, hput⟩ := hI.rest
    exact
      { hI with
        opened := hI.opened.of_takes (Or.inr rfl)
        ready := hI.ready.of_takes (Or.inr rfl)
        rest := ⟨cs, hcs, by rw [← hput, State.put, State.put, front_eq_some hc]; simp⟩ }
  | others fl =>
    cases h
    exact { hI with running := hok.1, calm := hok.2 }

/-! ### The reader comes to its end -/

/-- How many of the four steps for a chunk are done. -/
def stage : Reader.Pc → ℕ
  | .start => 0
  | .fail _ | .testRunning | .returned => 1
  | .testError => 2
  | .queueIsFull | .doneIsFull => 3
  | .enque | .queueDone => 4

/-- The steps a reader with the plan `plan` has before it. -/
def fuel (plan : List Chunk) (s : State) : ℕ :=
  4 * (plan.length + 1 - s.put.length) + 1 - stage s.read.pc

/-- Before its end the reader has something to put out. -/
theorem rest_ne_nil {l : Reader.Local} {cs : List Chunk} (h : R.Rest l cs)
    (hf : ∀ code, l.pc ≠ .fail code) (hp : l.pc ≠ .returned) : cs ≠ [] := by
  obtain ⟨pc, st, dc⟩ := l
  cases pc with
  | fail code => exact absurd rfl (hf code)
  | returned => exact absurd rfl hp
  | start | testRunning | testError =>
    obtain ⟨-, ds, -, rfl⟩ := h
    simp
  | queueIsFull | enque =>
    obtain ⟨c, ds, -, -, rfl⟩ := h
    simp
  | doneIsFull | queueDone =>
    rw [show cs = [doneChunk] from h]
    simp

theorem Inv.put_lt (hI : Inv R plan que_size I s) (hp : s.read.pc ≠ .returned) : s.put.length < plan.length + 1 := by
  obtain ⟨cs, hcs, hput⟩ := hI.rest
  have hlen : s.put.length + cs.length = plan.length + 1 :=
    calc s.put.length + cs.length
        = (plan ++ [doneChunk]).length := by rw [← hput, List.length_append]
      _ = plan.length + 1 := List.length_append
  have hpos : 0 < cs.length := List.length_pos_iff.mpr (rest_ne_nil hcs hI.sound hp)
  omega

/-- A step of the reader moves it on: to the next of the four steps for its
chunk, or the chunk is put out. -/
theorem fuel_of_moves {l l' : Reader.Local} {fl fl' : Flags} {out out' : Queue} {taken : List Chunk}
    (h : R.Moves l fl out l' fl' out') (hI : Inv R plan que_size I ⟨l, fl, out, taken⟩)
    (hok : Undisturbed ⟨l, fl, out, taken⟩ .reader) (hs : ∀ code, l'.pc ≠ .fail code) :
    fuel plan ⟨l', fl', out', taken⟩ + 1 ≤ fuel plan ⟨l, fl, out, taken⟩ := by
  have hput : (taken ++ out.elements).length < plan.length + 1 := hI.put_lt h.not_returned
  have hlen : ∀ c q, enque c out = some q →
      (taken ++ q.elements).length = (taken ++ out.elements).length + 1 := by
    intro c q hq
    rw [(enque_eq_some hq).1, ← List.append_assoc, List.length_append, List.length_singleton]
  simp only [fuel, State.put]
  cases h with
  | tooSmall _ _ => exact absurd rfl (hs _)
  | notOpened _ _ => exact absurd rfl (hs _)
  | doneNotQueued _ _ _ => exact absurd rfl (hs _)
  | failed hp => exact absurd hp (hI.sound _)
  | stopped _ hr => exact absurd (hI.running.symm.trans hr) (by decide)
  | full hp hf => exact absurd (hok (Or.inl hp)) (not_hasRoom_of_full hf)
  | doneFull hp hf => exact absurd (hok (Or.inr hp)) (not_hasRoom_of_full hf)
  | kept hp _ _ hc =>
    obtain ⟨cs, hcs, -⟩ := hI.rest
    rw [Reader.Rest, hp] at hcs
    exact absurd (hc.symm.trans hcs.1) nofun
  | notQueued hp _ hc =>
    obtain ⟨cs, hcs, -⟩ := hI.rest
    rw [Reader.Rest, hp] at hcs
    obtain ⟨c, ds, hc', -⟩ := hcs
    rcases hc with hc | hc
    · exact absurd (hc'.symm.trans hc) nofun
    · exact absurd (hI.ready (Or.inl hp)) hc
  | queued hp _ _ hq =>
    rw [hlen _ _ hq, hp]
    simp only [stage]
    omega
  | doneQueued hp _ hq =>
    rw [hlen _ _ hq, hp]
    simp only [stage]
    omega
  | opened hp _ => rw [hp]; simp only [stage]; omega
  | running hp _ => rw [hp]; simp only [stage]; omega
  | read hp _ _ _ _ => rw [hp]; simp only [stage]; omega
  | finished hp _ => rw [hp]; simp only [stage]; omega
  | room hp _ => rw [hp]; simp only [stage]; omega
  | doneRoom hp _ => rw [hp]; simp only [stage]; omega

/-- The steps of the reader. -/
def isReader : Party → Bool
  | .reader => true
  | _ => false

theorem step_fuel (hI : Inv R plan que_size I s) (hI' : Inv R plan que_size I s') (hok : Undisturbed s a)
    (h : ReaderRun.step R s a = some s') :
    fuel plan s' + (if isReader a then 1 else 0) ≤ fuel plan s := by
  cases a with
  | reader =>
    obtain ⟨⟨l, fl, out⟩, hx, rfl⟩ := Option.map_eq_some_iff.mp h
    exact fuel_of_moves (Reader.moves_of_step hx) hI hok hI'.sound
  | consumer =>
    obtain ⟨c, hc, rfl⟩ := Option.map_eq_some_iff.mp h
    have hput : s.taken ++ [c] ++ s.out.deque.elements = s.taken ++ s.out.elements := by
      rw [front_eq_some hc, List.append_assoc, List.singleton_append]
    simp [fuel, State.put, isReader, ← hput]
  | others fl => cases h; exact le_rfl

/-- The reader puts in at most one chunk at a time. -/
theorem queue_le_of_reader (h : ReaderRun.step R s .reader = some s') :
    s'.out.elements.length ≤ s.out.elements.length + 1 := by
  obtain ⟨⟨l, fl, out⟩, hx, rfl⟩ := Option.map_eq_some_iff.mp h
  cases Reader.moves_of_step hx with
  | queued _ _ _ hq => simp [(enque_eq_some hq).1]
  | doneQueued _ _ hq => simp [(enque_eq_some hq).1]
  | doneNotQueued _ _ _ => exact Nat.le_succ _
  | _ => exact Nat.le_succ _

/-- Before its end the reader can take a step, and nothing but the wait for
room may keep it from it. -/
theorem Inv.continues (hI : Inv R plan que_size I s) (hp : s.read.pc ≠ .returned) (hts : R.tooSmall = false) :
    ∃ s', ReaderRun.step R s .reader = some s' := by
  obtain ⟨cs, hcs, -⟩ := hI.rest
  have hcont : ∃ r, R.step s.read s.fl s.out .success = some r := Reader.continues hI.opened.2 hts hcs hI.sound hp
  obtain ⟨r, hr⟩ := hcont
  exact ⟨_, by simp only [ReaderRun.step, hr]; rfl⟩

/-- The reader comes nearer to its end, or the consumer takes out a chunk while
the reader waits for room. -/
theorem Inv.nearer (hts : R.tooSmall = false)
    (hnext : ∀ st c st', R.more st = true → R.next st = some (c, st') → I st → I st') (hq : 0 < que_size)
    (hI : Inv R plan que_size I s) (hp : s.read.pc ≠ .returned) :
    ∃ a s', Undisturbed s a ∧ ReaderRun.step R s a = some s' ∧ Inv R plan que_size I s' ∧
      2 * fuel plan s' + s'.out.elements.length < 2 * fuel plan s + s.out.elements.length := by
  by_cases hok : Undisturbed s .reader
  · obtain ⟨s', hstep⟩ := hI.continues hp hts
    have hI' := hI.step hts hnext hok hstep
    have hfuel : fuel plan s' + 1 ≤ fuel plan s := step_fuel hI hI' hok hstep
    have hlen := queue_le_of_reader hstep
    exact ⟨.reader, s', hok, hstep, hI', by omega⟩
  · -- the queue is full, so there is a chunk to take out
    have hroom : ¬ s.out.HasRoom := fun h => hok fun _ => h
    cases hf : s.out.front with
    | none =>
      refine absurd ?_ hroom
      rw [HasRoom, front_eq_none hf, hI.opened.1]
      exact hq
    | some c =>
      have hstep : ReaderRun.step R s .consumer =
          some { s with out := s.out.deque, taken := s.taken ++ [c] } := by
        rw [ReaderRun.step, hf]
        rfl
      have hok' : Undisturbed s .consumer := trivial
      have hI' := hI.step hts hnext hok' hstep
      have hfuel : fuel plan _ ≤ fuel plan s := step_fuel hI hI' hok' hstep
      refine ⟨.consumer, _, hok', hstep, hI', ?_⟩
      simp only [front_eq_some hf, List.length_cons]
      omega

/-- If the queue can hold a chunk the end can be reached. -/
theorem Inv.ends (hts : R.tooSmall = false)
    (hnext : ∀ st c st', R.more st = true → R.next st = some (c, st') → I st → I st') (hq : 0 < que_size)
    (hI : Inv R plan que_size I s) :
    ∃ s', Lts.Reach (ReaderRun.step R) Undisturbed s s' ∧ s'.read.pc = .returned := by
  obtain ⟨s', hr, -, hp⟩ := Lts.leads (I := Inv R plan que_size I) (P := fun s => s.read.pc = .returned)
    (fun s => 2 * fuel plan s + s.out.elements.length) (fun s hI hp => hI.nearer hts hnext hq hp) _ s le_rfl hI
  exact ⟨s', hr, hp⟩

/-- At its end the reader has put out the plan and `DONE`. -/
theorem Inv.returned (hI : Inv R plan que_size I s) (hp : s.read.pc = .returned) : s.put = plan ++ [doneChunk] := by
  obtain ⟨cs, hcs, hput⟩ := hI.rest
  rw [Reader.Rest, hp] at hcs
  rw [← hput, show cs = [] from hcs, List.append_nil]

/-- The invariant along a run. -/
theorem reach_inv (hts : R.tooSmall = false) (hplan : R.Reads .init plan) (hI : I .init)
    (hnext : ∀ st c st', R.more st = true → R.next st = some (c, st') → I st → I st')
    (h : Lts.Reach (ReaderRun.step R) Undisturbed (start que_size) s) : Inv R plan que_size I s :=
  h.invariant (start_inv hplan hI) fun _ _ _ hI hok hstep => hI.step hts hnext hok hstep

/-- No run gives the reader more than four steps for each chunk and one at the start. -/
theorem run_steps_le (hts : R.tooSmall = false) (hplan : R.Reads .init plan)
    {as : List Party} (h : Lts.run (ReaderRun.step R) Undisturbed (start que_size) as = some s) :
    as.countP isReader ≤ 4 * (plan.length + 1) + 1 := by
  have hcount := Lts.run_count (I := Inv R plan que_size fun _ => True) (fuel plan) isReader
    (fun s a s' hI hok hstep =>
      have hI' := hI.step hts (fun _ _ _ _ _ _ => trivial) hok hstep
      ⟨hI', step_fuel hI hI' hok hstep⟩)
    (start_inv hplan trivial) h
  have hstart : fuel plan (start que_size) = 4 * (plan.length + 1) + 1 := rfl
  omega

/-! ### `queueFileForDecrypt` -/

/-- `cs` is a file in chunks: the first two blocks, the bytes up to the last
block in pieces of at most `m`, the last block, `DONE`. -/
def Partition (file : List Byte) (s : SkeinSize) (m : ℕ) (cs : List Chunk) : Prop :=
  ∃ ps : List (List Byte), ps ≠ [] ∧ (∀ p ∈ ps, 1 ≤ p.length ∧ p.length ≤ m) ∧
    ps.flatten = (file.drop (2 * s.bytes)).take (file.length - s.bytes - 2 * s.bytes) ∧
    cs = [dataChunk .CHECK_HEADER s (file.take (2 * s.bytes))] ++ ps.map (dataChunk .GEN_MAC s) ++
      [dataChunk .MAC s (file.drop (file.length - s.bytes))] ++ [doneChunk]

theorem decryptPlan_partition {file : List Byte} {s : SkeinSize} {m : ℕ} (hm : 0 < m)
    (hbig : s.bytes * 3 < file.length) : Partition file s m (decryptPlan file s m ++ [doneChunk]) := by
  have hlen : 0 < (dataPart file s).length := by
    rw [length_dataPart (isGreaterThanThreeBlocks_iff.mpr hbig)]
    omega
  refine ⟨pieces m (dataPart file s), ?_, fun p hp => ?_, flatten_pieces hm _, rfl⟩
  · rw [pieces_of_ne_nil hm hlen]
    exact List.cons_ne_nil _ _
  · obtain ⟨hpos, hle⟩ := mem_pieces hm hp
    omega

/-- The header is read first, and while bytes are left the last block is left. -/
structure Cut (file : List Byte) (s : SkeinSize) (st : ReadState) : Prop where
  header : st.header = true → st.bytes_read = 0
  left : st.bytes_read < file.length → st.bytes_read + s.bytes ≤ file.length

theorem cut_init {file : List Byte} {s : SkeinSize} (hbig : s.bytes * 3 < file.length) : Cut file s .init where
  header := fun _ => rfl
  left := fun _ => by
    simp only [ReadState.init]
    omega

/-- What is left for data, computed in unsigned arithmetic. -/
theorem Cut.sub64_eq {file : List Byte} {s : SkeinSize} {st : ReadState} (hC : Cut file s st)
    (hmore : st.bytes_read < file.length) (h63 : file.length < 2 ^ 63) :
    sub64 file.length (add64 st.bytes_read s.bytes) = file.length - (st.bytes_read + s.bytes) := by
  have hleft := hC.left hmore
  rw [add64_eq (by omega), Threefizer.sub64_eq hleft (by omega)]

theorem Cut.next {file : List Byte} {s : SkeinSize} {m : ℕ} {st st' : ReadState} {c : Chunk}
    (hbig : s.bytes * 3 < file.length) (h63 : file.length < 2 ^ 63)
    (hmore : (decryptReader file s m).more st = true) (h : (decryptReader file s m).next st = some (c, st'))
    (hC : Cut file s st) : Cut file s st' := by
  have hlt : st.bytes_read < file.length := of_decide_eq_true hmore
  have hleft := hC.left hlt
  simp only [decryptReader, hC.sub64_eq hlt h63] at h
  obtain ⟨d, -, hd⟩ := Option.map_eq_some_iff.mp h
  cases hd
  refine ⟨fun hh => absurd hh Bool.false_ne_true, fun hlt' => ?_⟩
  simp only at hlt' ⊢
  split at hlt'
  next hh =>
    -- the header
    have h0 := hC.header hh
    rw [if_pos hh]
    simp only
    omega
  next hh =>
    rw [if_neg hh]
    split at hlt'
    next hge =>
      -- a full chunk of data
      rw [if_pos hge]
      simp only
      omega
    next hge =>
      rw [if_neg hge]
      split at hlt'
      next hgt =>
        -- the data that is left
        rw [if_pos hgt]
        simp only
        omega
      next hgt =>
        -- the last block: nothing is left behind it
        simp only at hlt'
        omega

section Decrypt

variable {file : List Byte} {s : SkeinSize} {m que_size : ℕ}

theorem decrypt_tooSmall (hbig : s.bytes * 3 < file.length) : (decryptReader file s m).tooSmall = false := by
  simp [decryptReader, isGreaterThanThreeBlocks_iff.mpr hbig]

theorem decrypt_reads (hbig : s.bytes * 3 < file.length) (h63 : file.length < 2 ^ 63) (hm : 0 < m)
    (hread : m ≤ READ_MAX) : (decryptReader file s m).Reads .init (decryptPlan file s m) := by
  have hB := s.bytes_cases
  exact decryptReader_reads (isGreaterThanThreeBlocks_iff.mpr hbig) hm (min_le_of_right_le hread) (by omega)

theorem decrypt_inv (hbig : s.bytes * 3 < file.length) (h63 : file.length < 2 ^ 63) (hm : 0 < m)
    (hread : m ≤ READ_MAX) {r : State}
    (h : Lts.Reach (step (decryptReader file s m)) Undisturbed (start que_size) r) :
    Inv (decryptReader file s m) (decryptPlan file s m) que_size (Cut file s) r :=
  reach_inv (decrypt_tooSmall hbig) (decrypt_reads hbig h63 hm hread) (cut_init hbig)
    (fun _ _ _ hmore hn hC => hC.next hbig h63 hmore hn) h

theorem decrypt_steps_le (hbig : s.bytes * 3 < file.length) (h63 : file.length < 2 ^ 63) (hm : 0 < m)
    (hread : m ≤ READ_MAX) {as : List Party} {r : State}
    (h : Lts.run (step (decryptReader file s m)) Undisturbed (start que_size) as = some r) :
    as.countP isReader ≤ 4 * (pieceCount (file.length - 3 * s.bytes) m + 3) + 1 := by
  have hle := run_steps_le (decrypt_tooSmall hbig) (decrypt_reads hbig h63 hm hread) h
  have hlen : (decryptPlan file s m).length = pieceCount (file.length - 3 * s.bytes) m + 2 := by
    simp [decryptPlan, macPlan, length_dataPart (isGreaterThanThreeBlocks_iff.mpr hbig)]
  omega

end Decrypt

/-- In every run of `queueFileForDecrypt` on a file of more than three blocks
the reader comes to its end: it has a bounded number of steps, can always take
the next one, and if the queue can hold a chunk the end can be reached. What it
has put out then is the file in chunks, and the size left for data never wraps. -/
theorem decrypt_partitions (s : SkeinSize) (file : List Byte) (hbig : s.bytes * 3 < file.length)
    (h63 : file.length < 2 ^ 63) (que_size : ℕ) :
    (∀ as r, Lts.run (step (decryptReader file s MAX_CHUNK_SIZE)) Undisturbed (start que_size) as = some r →
      as.countP isReader ≤ 4 * (pieceCount (file.length - 3 * s.bytes) MAX_CHUNK_SIZE + 3) + 1) ∧
    ∀ r, Lts.Reach (step (decryptReader file s MAX_CHUNK_SIZE)) Undisturbed (start que_size) r →
      (r.read.pc ≠ .returned → ∃ r', step (decryptReader file s MAX_CHUNK_SIZE) r .reader = some r') ∧
      (0 < que_size → ∃ r', Lts.Reach (step (decryptReader file s MAX_CHUNK_SIZE)) Undisturbed r r' ∧
        r'.read.pc = .returned) ∧
      (r.read.pc = .returned → Partition file s MAX_CHUNK_SIZE r.put) ∧
      (r.read.st.bytes_read < file.length → r.read.st.bytes_read + s.bytes ≤ file.length ∧
        sub64 file.length (add64 r.read.st.bytes_read s.bytes) =
          file.length - (r.read.st.bytes_read + s.bytes)) := by
  obtain ⟨hpos, -, hread⟩ := MAX_CHUNK_SIZE_ok s
  refine ⟨fun as r h => decrypt_steps_le hbig h63 hpos hread h, fun r h => ?_⟩
  have hI := decrypt_inv hbig h63 hpos hread h
  refine ⟨fun hp => hI.continues hp (decrypt_tooSmall hbig), fun hq => ?_, fun hp => ?_,
    fun hlt => ⟨hI.vars.left hlt, ?_⟩⟩
  · exact hI.ends (decrypt_tooSmall hbig) (fun _ _ _ hmore hn hC => hC.next hbig h63 hmore hn) hq
  · rw [hI.returned hp]
    exact decryptPlan_partition hpos hbig
  · exact hI.vars.sub64_eq hlt h63

theorem decrypt_partitions_sample :
    ∃ r, Lts.Reach (step (decryptReader Skein3fish.sampleFile .Skein256 MAX_CHUNK_SIZE)) Undisturbed
        (start QUE_SIZE) r ∧
      r.read.pc = .returned ∧ Partition Skein3fish.sampleFile .Skein256 MAX_CHUNK_SIZE r.put := by
  have hrun : (Lts.run (step (decryptReader Skein3fish.sampleFile .Skein256 MAX_CHUNK_SIZE)) Undisturbed
      (start QUE_SIZE) (List.replicate 9 .reader ++ [.others ⟨true, true, none, 8⟩, .consumer] ++
        List.replicate 8 .reader)).any
        (fun r => decide (r.read.pc = .returned)) = true := by decide +kernel
  obtain ⟨r, hr, hp⟩ := Lts.Reach.of_run_any hrun
  have hret := of_decide_eq_true hp
  exact ⟨r, hr, hret, (((decrypt_partitions .Skein256 Skein3fish.sampleFile (by decide +kernel)
    (by decide +kernel) QUE_SIZE).2 r hr).2.2.1 hret)⟩

end ReaderRun

end Threefizer
