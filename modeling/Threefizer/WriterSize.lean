/-
# The writer and the stored size

The writer of `Leftover` when it is told the size of the plain text, whatever
that size is. The chunks can hold more or fewer bytes, and the size can lie
inside a chunk or between two of them.

No count of the writer wraps: what is written and what the chunks still hold is
never more than they held (`Budget`), and the size is the one that was stored
by the time there is a chunk to write. So what is written of a chunk is what is
missing up to the size, or all of the chunk (`bytesToWrite_eq`).

Undisturbed, the writer comes to its end (`writes_size`). It can always take a
step; each step lowers `rank`, as long as the queue is not empty or nothing
more is to come.
-/
import Threefizer.Leftover

namespace Threefizer

open Words Queue

namespace WriteThread

/-! ### How much is written -/

/-- Up to the size, no more than the chunk. -/
theorem bytesToWrite_eq {n b : ℕ} {c : Chunk} (hb : b ≤ n) (hn : n < 2 ^ 64) (h64 : b + c.data_size < 2 ^ 64) :
    bytesToWrite (some n) b c = min c.data_size (n - b) := by
  rw [bytesToWrite, add64_eq h64]
  by_cases hgt : b + c.data_size > n
  · rw [if_pos hgt, sub64_eq hb hn]
    omega
  · rw [if_neg hgt]
    omega

/-- The bytes of the chunk in hand and those in the queue. -/
def held (l : Local) (inq : Queue) : ℕ := ((l.write_chunk.toList ++ inq.elements).map Chunk.data_size).sum

/-- What is about to be written is in the chunk, and the size leaves room for it. -/
def Due (n : ℕ) (l : Local) : Prop :=
  l.pc = .writeBytes → ∀ c, l.write_chunk = some c →
    l.bytes_to_write ≤ c.data_size ∧ l.bytes_written + l.bytes_to_write ≤ n

variable {P : WriteParams} {l l' : Local} {fl fl' : Flags} {inq inq' : Queue} {fs fs' : FileSystem} {n : ℕ}

@[simp] theorem useChunk_bytes_written (l : Local) : (useChunk l).bytes_written = l.bytes_written := by
  unfold useChunk
  split <;> rfl

@[simp] theorem testDone_bytes_written (P : WriteParams) (l : Local) :
    (testDone P l).bytes_written = l.bytes_written := by
  unfold testDone
  split
  · rfl
  · split
    · rfl
    · exact useChunk_bytes_written l

@[simp] theorem held_useChunk (l : Local) (inq : Queue) : held (useChunk l) inq = held l inq := by
  rw [held, held, useChunk_chunk]

@[simp] theorem held_testDone (P : WriteParams) (l : Local) (inq : Queue) :
    held (testDone P l) inq = held l inq := by
  rw [held, held, testDone_chunk]

theorem due_useChunk (l : Local) : Due n (useChunk l) := by
  intro hp
  rcases useChunk_pc l with h | h <;> rw [h] at hp <;> cases hp

theorem due_testDone (P : WriteParams) (l : Local) : Due n (testDone P l) := by
  rcases testDone_pc P l with h | h | h
  · intro hp; rw [h] at hp; cases hp
  · intro hp; rw [h] at hp; cases hp
  · rw [h]; exact due_useChunk l

/-- A step writes no more than the chunks held, and not past the size. -/
theorem Moves.budget (h : Moves P l fl inq fs l' fl' inq' fs') (hP : P.sized = true)
    (hS : Sized (some n) l fl) (hn : n < 2 ^ 64) (h64 : l.bytes_written + held l inq < 2 ^ 64)
    (hb : l.bytes_written ≤ n) (hD : Due n l) :
    l'.bytes_written + held l' inq' ≤ l.bytes_written + held l inq ∧ l'.bytes_written ≤ n ∧ Due n l' := by
  obtain ⟨pc, wc, bw, btw, w⟩ := l
  cases h with
  | kept _ _ _ => exact ⟨by simp, by simpa using hb, due_testDone _ _⟩
  | nothing _ _ _ => exact ⟨by simp, by simpa using hb, due_testDone _ _⟩
  | @taken c hp _ hf =>
    refine ⟨?_, by simpa using hb, due_testDone _ _⟩
    have hle : ([c] ++ inq.deque.elements).map Chunk.data_size = inq.elements.map Chunk.data_size := by
      rw [front_eq_some hf]
      rfl
    rw [testDone_bytes_written, held_testDone]
    simp only [held, Option.toList_some, hle, List.map_append, List.sum_append]
    omega
  | notValid _ _ => exact ⟨by simp, by simpa using hb, due_useChunk _⟩
  | sizeNotReached _ _ => exact ⟨by simp, by simpa using hb, due_useChunk _⟩
  | @toWrite c hp hc =>
    cases hc
    have hbw : bw ≤ n := hb
    refine ⟨le_rfl, hb, fun _ d hd => ?_⟩
    cases hd
    -- with a chunk in hand the size is valid
    have hsize : fl.new_file_size = n :=
      (hS n rfl).1 (Or.inl ((hS n rfl).2 (Option.some_ne_none _)))
    have hc64 : bw + c.data_size < 2 ^ 64 := by
      simp only [held, Option.toList_some, List.cons_append, List.map_cons, List.sum_cons] at h64
      omega
    simp only [hP, if_true, hsize, bytesToWrite_eq hb hn hc64]
    omega
  | @wrote c hp hc =>
    cases hp; cases hc
    obtain ⟨hle, hsum⟩ := hD rfl c rfl
    simp only [held, Option.toList_some, Option.toList_none, List.cons_append, List.nil_append, List.map_cons,
      List.sum_cons] at h64 ⊢
    simp only at hle hsum
    rw [add64_eq (by omega)]
    exact ⟨by omega, hsum, nofun⟩
  | _ => exact ⟨le_rfl, hb, nofun⟩

/-! ### The way to the end -/

variable (P fl fs) in
/-- The writer can always take a step. -/
theorem continues (hin : inq.locked = false) (hH : Holding l) (hp : l.pc ≠ .returned) :
    ∃ r, step P l fl inq fs .success = some r := by
  obtain ⟨pc, wc, bw, btw, w⟩ := l
  cases pc with
  | bytesToWrite =>
    obtain ⟨c, hc⟩ := Option.ne_none_iff_exists'.mp (hH (Or.inl rfl))
    cases hc
    exact ⟨_, rfl⟩
  | writeBytes =>
    obtain ⟨c, hc⟩ := Option.ne_none_iff_exists'.mp (hH (Or.inr rfl))
    cases hc
    exact ⟨_, rfl⟩
  | fetch => cases hf : inq.front <;> simp [step, hin, hf]
  | testError => by_cases he : fl.error = none <;> cases wc <;> simp [step, he]
  | returned => exact absurd rfl hp
  | _ => exact ⟨_, rfl⟩

/-- How many chunks the writer has before it. -/
def waiting (l : Local) (inq : Queue) : ℕ := l.write_chunk.toList.length + inq.elements.length

/-- The writer has found its queue empty, and now there is a chunk in it. -/
def Late (l : Local) (inq : Queue) : Prop := l.write_chunk = none ∧ inq.elements ≠ []

instance (l : Local) (inq : Queue) : Decidable (Late l inq) := by unfold Late; infer_instance

/-- The steps of the current round that are left. A round that is late has
another one behind it. -/
def stage (l : Local) (inq : Queue) : ℕ :=
  match l.pc with
  | .openFile => 12
  | .testRunning => 11
  | .testError => 10
  | .fetch => 9
  | .testValid => if Late l inq then 13 else 8
  | .testSize => if Late l inq then 12 else 7
  | .bytesToWrite => 6
  | .writeBytes => 5
  | .lastError => 3
  | .rename => 2
  | .clearRunning => 1
  | .fail _ | .writeFail | .returned => 0

theorem stage_le (l : Local) (inq : Queue) : stage l inq ≤ 13 := by
  unfold stage
  split
  case h_5 | h_6 => split <;> decide
  all_goals decide

/-- How far an undisturbed writer is from its end. -/
def distance (l : Local) (inq : Queue) : ℕ := 16 * waiting l inq + stage l inq

@[simp] theorem waiting_testDone (P : WriteParams) (l : Local) (inq : Queue) :
    waiting (testDone P l) inq = waiting l inq := by
  rw [waiting, waiting, testDone_chunk]

/-- After the first test for termination a writer with a size looks at that. -/
theorem stage_testDone (hP : P.sized = true) (hlate : ¬ Late l inq) : stage (testDone P l) inq < 9 := by
  by_cases hd : ∃ c ∈ l.write_chunk, c.action = .DONE
  · rw [testDone, if_pos hd]
    show 3 < 9
    decide
  · have hlate' : ¬ Late { l with pc := .testValid } inq := hlate
    rw [testDone, if_neg hd, if_pos hP]
    simp only [stage, if_neg hlate']
    decide

/-- A writer that has not written enough and finds no chunk has found its queue
empty too early. -/
theorem late_of_none {x : List Chunk} {b : ℕ} {bs : List Byte} (hc : l.write_chunk = none)
    (hx : inq.elements ≠ [] ∨ x = []) (hb : b < n)
    (hbs : asyncWrite (some n) b (l.write_chunk.toList ++ (inq.elements ++ x)) = some bs) : Late l inq := by
  refine ⟨hc, fun hq => ?_⟩
  have hx' : x = [] := hx.resolve_left fun h => h hq
  rw [hc, hq, hx', Option.toList_none, List.append_nil, List.append_nil, asyncWrite] at hbs
  have hr : ¬ reached (some n) b = true := by simpa [reached] using hb
  rw [if_neg hr] at hbs
  cases hbs

/-- With the size valid, and a chunk in the queue or nothing more to come, each
step of an undisturbed writer brings it nearer to its end. -/
theorem Moves.distance {x : List Chunk} {total : List Byte} (h : Moves P l fl inq fs l' fl' inq' fs')
    (hP : P.sized = true) (hrun : fl.running = true) (herr : fl.error = none) (hf : ¬ Failing l)
    (hf' : ¬ Failing l') (hv : fl.valid = true) (hS : Sized (some n) l fl)
    (hR : Rest (some n) l (inq.elements ++ x) total) (hx : inq.elements ≠ [] ∨ x = []) :
    distance l' inq' < distance l inq := by
  obtain ⟨pc, wc, bw, btw, w⟩ := l
  have hsize : fl.new_file_size = n := (hS n rfl).1 (Or.inl hv)
  cases h with
  | opened hp => cases hp; exact Nat.lt_succ_self _
  | notOpened _ => exact absurd (Or.inl ⟨_, rfl⟩) hf'
  | failed hp => exact absurd (Or.inl ⟨_, hp⟩) hf
  | running hp _ => cases hp; exact Nat.lt_succ_self _
  | stopped _ hr => exact absurd (hrun.symm.trans hr) (by decide)
  | empty hp _ _ => cases hp; exact Nat.lt_succ_self _
  | @kept c hp _ hc =>
    cases hp; cases hc
    have hlate : ¬ Late ⟨.testError, some c, bw, btw, w⟩ inq := fun hl => absurd hl.1 (Option.some_ne_none c)
    have := stage_testDone hP hlate
    simp only [WriteThread.distance, waiting_testDone, stage] at this ⊢
    omega
  | error _ he => exact absurd herr he
  | nothing hp _ hq =>
    cases hp
    have hlate : ¬ Late ⟨.fetch, wc, bw, btw, w⟩ inq := fun hl => hl.2 (front_eq_none hq)
    have := stage_testDone hP hlate
    simp only [WriteThread.distance, waiting_testDone, stage] at this ⊢
    omega
  | @taken c hp _ hq =>
    cases hp
    obtain ⟨hwc, -⟩ := hR
    cases hwc
    have hlate : ¬ Late ⟨.fetch, some c, bw, btw, w⟩ inq.deque := fun hl => absurd hl.1 (Option.some_ne_none c)
    have := stage_testDone hP hlate
    have hw : waiting ⟨.fetch, some c, bw, btw, w⟩ inq.deque = waiting ⟨.fetch, none, bw, btw, w⟩ inq := by
      simp only [waiting, front_eq_some hq, Option.toList_some, Option.toList_none, List.length_nil,
        List.length_cons]
      omega
    simp only [WriteThread.distance, waiting_testDone, hw]
    simp only [stage] at this ⊢
    omega
  | valid hp _ =>
    cases hp
    by_cases hlate : Late ⟨.testValid, wc, bw, btw, w⟩ inq
    · have hlate' : Late ⟨.testSize, wc, bw, btw, w⟩ inq := hlate
      simp only [WriteThread.distance, stage, if_pos hlate, if_pos hlate']
      exact Nat.lt_succ_self _
    · have hlate' : ¬ Late ⟨.testSize, wc, bw, btw, w⟩ inq := hlate
      simp only [WriteThread.distance, stage, if_neg hlate, if_neg hlate']
      exact Nat.lt_succ_self _
  | notValid _ hv' => exact absurd (hv.symm.trans hv') (by decide)
  | sizeReached hp _ =>
    cases hp
    have hle : 7 ≤ stage ⟨.testSize, wc, bw, btw, w⟩ inq := by
      simp only [stage]
      split <;> decide
    have hw : waiting ⟨.lastError, wc, bw, btw, w⟩ inq = waiting ⟨.testSize, wc, bw, btw, w⟩ inq := rfl
    simp only [WriteThread.distance, hw]
    have hs : stage ⟨.lastError, wc, bw, btw, w⟩ inq = 3 := rfl
    omega
  | sizeNotReached hp hr =>
    cases hp
    obtain ⟨-, hd, bs, hbs, -⟩ := hR
    rw [hsize] at hr
    cases wc with
    | none =>
      -- no chunk in hand: on to the next round, where there is one
      have hlate : Late ⟨.testSize, none, bw, btw, w⟩ inq := late_of_none rfl hx hr hbs
      simp only [WriteThread.distance, useChunk, stage, if_pos hlate]
      exact Nat.lt_succ_self _
    | some c =>
      have hcond : ¬ (c.action = .DONE ∨ reached (some n) bw = true) := by
        have hr' : ¬ reached (some n) bw = true := by simpa [reached] using hr
        exact fun h => h.elim (hd c rfl) hr'
      simp only [Option.toList_some, List.cons_append, asyncWrite, if_neg hcond] at hbs
      split at hbs
      · cases hbs
      · next hdata =>
        have hlate : ¬ Late ⟨.testSize, some c, bw, btw, w⟩ inq := fun hl => absurd hl.1 (Option.some_ne_none c)
        simp only [WriteThread.distance, useChunk, if_neg hdata, stage, if_neg hlate]
        exact Nat.lt_succ_self _
  | toWrite hp hc => cases hp; cases hc; exact Nat.lt_succ_self _
  | wrote hp hc =>
    cases hp; cases hc
    simp only [WriteThread.distance, waiting, Option.toList_some, Option.toList_none, List.length_nil,
      List.length_singleton, stage]
    omega
  | notWritten _ _ _ => exact absurd (Or.inr rfl) hf'
  | writeFailed hp => exact absurd (Or.inr hp) hf
  | good hp _ => cases hp; exact Nat.lt_succ_self _
  | bad _ he => exact absurd herr he
  | renamed hp => cases hp; exact Nat.lt_succ_self _
  | notRenamed hp => cases hp; exact Nat.lt_succ_self _
  | cleared hp => cases hp; exact Nat.lt_succ_self _

end WriteThread

namespace WriterSize

open Leftover
open WriteThread hiding step

variable {D : Delivery} {old : FileSystem} {que_size : ℕ} {s s' : State} {a : Party}

/-! ### The counts -/

/-- The bytes written and those that the chunks still hold. -/
structure Budget (D : Delivery) (s : State) : Prop where
  total : s.write.bytes_written + held s.write s.write_queue + (s.feed.map Chunk.data_size).sum ≤
    (D.chunks.map Chunk.data_size).sum
  size : s.write.bytes_written ≤ D.size
  due : Due D.size s.write

theorem start_budget (fs : FileSystem) (que_size : ℕ) : Budget D (start D fs que_size) where
  total := by simp [start, held, Local.init, createQueue, doneChunk, createChunk]
  size := Nat.zero_le _
  due := nofun

theorem limit_eq (hs : D.params.sized = true) : D.limit = some D.size := if_pos hs

theorem total_lt (hs : D.params.sized = true) : (D.chunks.map Chunk.data_size).sum < 2 ^ 64 := by
  rw [← length_bytes D.handed]
  exact D.fits hs

theorem Budget.step (hs : D.params.sized = true) (hI : Inv D old s) (hB : Budget D s)
    (h : Leftover.step D s a = some s') : Budget D s' := by
  cases Leftover.moves_of_step D h with
  | feed _ hfeed hq =>
    refine { hB with total := le_trans ?_ hB.total }
    rw [hfeed]
    simp only [held, (enque_eq_some hq).1, List.map_append, List.sum_append, List.map_cons, List.map_nil,
      List.sum_cons, List.sum_nil]
    omega
  | @write _ l _ inq _ hx =>
    have hS := hI.writeSized
    rw [limit_eq hs] at hS
    have hlt := total_lt hs
    have htotal := hB.total
    obtain ⟨hle, hsize, hdue⟩ :=
      (WriteThread.moves_of_step hx).budget hs hS D.size_lt (by omega) hB.size hB.due
    refine ⟨?_, hsize, hdue⟩
    show l.bytes_written + held l inq + (s.feed.map Chunk.data_size).sum ≤ _
    omega
  | _ => exact { hB with }

theorem reach_inv (h : Lts.Reachable (step D) (start D old que_size) s) : Inv D old s :=
  h.invariant (start_inv D old que_size) fun _ _ _ hI _ hstep => hI.step hstep

theorem reach_budget (hs : D.params.sized = true) (h : Lts.Reachable (step D) (start D old que_size) s) :
    Budget D s :=
  Lts.Reach.invariant' (fun _ => reach_inv) (start_budget old que_size)
    (fun _ _ _ hI hB _ hstep => hB.step hs hI hstep) h

/-- No count wraps where the writer uses it. -/
theorem no_wrap (hs : D.params.sized = true) (h : Lts.Reachable (step D) (start D old que_size) s) {c : Chunk}
    (hc : s.write.write_chunk = some c) :
    s.fl.new_file_size = D.size ∧ s.write.bytes_written + c.data_size < 2 ^ 64 := by
  have hI := reach_inv h
  have hB := (reach_budget hs h).total
  have hlt := total_lt hs
  refine ⟨hI.told (hI.fed hs (Or.inr ?_)), ?_⟩
  · rw [hc]
    exact Option.some_ne_none _
  · simp only [held, hc, Option.toList_some, List.cons_append, List.map_cons, List.sum_cons] at hB
    omega

/-! ### The end -/

/-- No thread fails, and no call of the writer does. -/
def Undisturbed (_ : State) : Party → Prop
  | .error _ => False
  | .write o => o = .success
  | _ => True

instance (s : State) (a : Party) : Decidable (Undisturbed s a) := by
  unfold Undisturbed
  cases a <;> infer_instance

/-- Nothing has gone wrong, and nothing is fed before the size is valid. -/
structure Calm (que_size : ℕ) (s : State) : Prop where
  calm : s.fl.error = none
  sound : ¬ Failing s.write
  opened : s.write_queue.Open que_size
  holding : Holding s.write
  valid : s.feed = [] → s.fl.valid = true

theorem start_calm (fs : FileSystem) (que_size : ℕ) : Calm que_size (start D fs que_size) where
  calm := rfl
  sound := by rintro (⟨code, h⟩ | h) <;> cases h
  opened := ⟨rfl, rfl⟩
  holding := by intro h; simp [start, Local.init] at h
  valid := fun h => by simp [start] at h

theorem Calm.step (hs : D.params.sized = true) (hC : Calm que_size s) (hok : Undisturbed s a)
    (h : Leftover.step D s a = some s') : Calm que_size s' := by
  cases Leftover.moves_of_step D h with
  | feed hv _ hq => exact { hC with opened := hC.opened.enque hq, valid := fun _ => hv hs }
  | size => exact { hC with }
  | valid _ => exact { hC with valid := fun _ => rfl }
  | error code => exact hok.elim
  | write hx =>
    have hm := WriteThread.moves_of_step hx
    exact
      { calm := (hm.keeps_error hC.sound).trans hC.calm
        sound := fun hf => step_failing hx hf hok
        opened := hC.opened.of_takes hm.takes
        holding := hm.holding
        valid := fun hfeed => hm.keeps_size.1.trans (hC.valid hfeed) }

theorem reach_calm (hs : D.params.sized = true) (h : Lts.Reach (step D) Undisturbed (start D old que_size) s) :
    Calm que_size s :=
  h.invariant (start_calm old que_size) fun _ _ _ hC hok hstep => hC.step hs hok hstep

/-- The writer comes nearer to its end. -/
theorem write_distance {l : Local} {fl : Flags} {inq : Queue} {fs : FileSystem} (hs : D.params.sized = true)
    (hI : Inv D old s) (hC : Calm que_size s) (hv : s.fl.valid = true)
    (hx : s.write_queue.elements ≠ [] ∨ s.feed = [])
    (h : WriteThread.step D.params s.write s.fl s.write_queue s.fs .success = some (l, fl, inq, fs)) :
    distance l inq < distance s.write s.write_queue := by
  have hm := WriteThread.moves_of_step h
  have hrun := hI.runs hm.not_returned
  have hS := hI.writeSized
  have hR := hI.flow ⟨hrun, hC.calm⟩
  rw [limit_eq hs] at hS hR
  exact hm.distance hs hrun hC.calm hC.sound (fun hf => step_failing h hf rfl) hv hS hR hx

/-- The steps of the writer. -/
def isWrite : Party → Bool
  | .write _ => true
  | _ => false

/-- When nothing more is to come, the writer has so many steps before it. -/
theorem writes_le (hs : D.params.sized = true) (hI : Inv D old s) (hC : Calm que_size s) (hfeed : s.feed = [])
    {as : List Party} (h : Lts.run (step D) Undisturbed s as = some s') :
    as.countP isWrite ≤ 16 * waiting s.write s.write_queue + 13 := by
  have hcount := Lts.run_count (I := fun s => Inv D old s ∧ Calm que_size s ∧ s.feed = [])
    (fun s => distance s.write s.write_queue) isWrite (fun s a s' hI hok hstep => ?_) ⟨hI, hC, hfeed⟩ h
  · have hle : distance s.write s.write_queue ≤ 16 * waiting s.write s.write_queue + 13 :=
      Nat.add_le_add_left (stage_le _ _) _
    omega
  · obtain ⟨hI, hC, hfeed⟩ := hI
    have hI' := hI.step hstep
    have hC' := hC.step hs hok hstep
    cases Leftover.moves_of_step D hstep with
    | feed _ hf _ => exact absurd (hfeed.symm.trans hf) (List.cons_ne_nil _ _).symm
    | size => exact ⟨⟨hI', hC', hfeed⟩, le_rfl⟩
    | valid _ => exact ⟨⟨hI', hC', hfeed⟩, le_rfl⟩
    | error code => exact hok.elim
    | @write o _ _ _ _ hx =>
      cases (show o = .success from hok)
      exact ⟨⟨hI', hC', hfeed⟩, write_distance hs hI hC (hC.valid hfeed) (Or.inr hfeed) hx⟩

/-- The way to the end: what is still to be fed, the size and that it is valid,
the steps of the writer. -/
def fuel (D : Delivery) (s : State) : ℕ :=
  32 * s.feed.length + distance s.write s.write_queue +
    if s.fl.valid then 0 else if s.fl.new_file_size = D.size then 1 else 2

/-- Before the end somebody can come nearer to it. -/
theorem fuel_step (hs : D.params.sized = true) (hq : 0 < que_size) (hI : Inv D old s) (hC : Calm que_size s)
    (hp : s.write.pc ≠ .returned) :
    ∃ a s', Undisturbed s a ∧ step D s a = some s' ∧ (Inv D old s' ∧ Calm que_size s') ∧
      fuel D s' < fuel D s := by
  have hnear : ∀ a s', Undisturbed s a → step D s a = some s' → fuel D s' < fuel D s →
      ∃ a s', Undisturbed s a ∧ step D s a = some s' ∧ (Inv D old s' ∧ Calm que_size s') ∧
        fuel D s' < fuel D s :=
    fun a s' hok hstep hlt => ⟨a, s', hok, hstep, ⟨hI.step hstep, hC.step hs hok hstep⟩, hlt⟩
  have hwrite : s.fl.valid = true → s.write_queue.elements ≠ [] ∨ s.feed = [] →
      ∃ s', step D s (.write .success) = some s' ∧ fuel D s' < fuel D s := fun hv hx => by
    obtain ⟨⟨l, fl, inq, fs⟩, hstep⟩ :=
      continues D.params s.fl s.fs hC.opened.2 hC.holding hp
    have hstep' : step D s (.write .success) =
        some { s with write := l, fl := fl, write_queue := inq, fs := fs } := by
      rw [step, hstep]
      rfl
    have hv' : fl.valid = true := (moves_of_step hstep).keeps_size.1.trans hv
    have hlt := write_distance hs hI hC hv hx hstep
    refine ⟨_, hstep', ?_⟩
    simp only [fuel, hv, hv', if_true]
    omega
  cases hv : s.fl.valid with
  | false =>
    by_cases hn : s.fl.new_file_size = D.size
    · refine hnear .valid { s with fl := { s.fl with valid := true } } trivial (if_pos hn) ?_
      simp [fuel, hv, hn]
    · refine hnear .size { s with fl := { s.fl with new_file_size := D.size } } trivial rfl ?_
      simp [fuel, hv, hn]
  | true =>
    cases hfeed : s.feed with
    | nil =>
      obtain ⟨s', hstep, hlt⟩ := hwrite hv (Or.inr hfeed)
      exact hnear (.write .success) s' rfl hstep hlt
    | cons c cs =>
      by_cases hroom : s.write_queue.HasRoom
      · obtain ⟨q, hq⟩ := enque_of_room c hroom
        refine hnear .feed { s with feed := cs, write_queue := q } trivial (by simp [step, hv, hfeed, hq]) ?_
        have hst := stage_le s.write q
        simp only [fuel, hfeed, List.length_cons, distance, waiting, (enque_eq_some hq).1, List.length_append,
          List.length_nil]
        omega
      · -- the queue is full, so there is a chunk in it
        have hne : s.write_queue.elements ≠ [] := by
          intro hnil
          apply hroom
          rw [HasRoom, hnil, hC.opened.1]
          exact hq
        obtain ⟨s', hstep, hlt⟩ := hwrite hv (Or.inl hne)
        exact hnear (.write .success) s' rfl hstep hlt

/-- A decrypting writer writes the first `D.size` bytes, or all if there are
fewer. No count wraps, in any run. Undisturbed, it can always take the next
step, it comes to its end in a bounded number of steps once all is queued, and
from every state the end can be reached. -/
theorem writes_size (D : Delivery) (hs : D.params.sized = true) (fs : FileSystem) (que_size : ℕ) :
    (∀ s, Lts.Reachable (step D) (start D fs que_size) s →
      s.write.bytes_written ≤ D.size ∧
      ∀ c, s.write.write_chunk = some c →
        s.fl.new_file_size = D.size ∧ s.write.bytes_written + c.data_size < 2 ^ 64 ∧
        bytesToWrite (some s.fl.new_file_size) s.write.bytes_written c ≤ c.data_size) ∧
    ∀ s, Lts.Reach (step D) Undisturbed (start D fs que_size) s →
      (s.write.pc = .returned → s.write.written =
        (D.chunks.flatMap Chunk.bytes).take (min D.size (D.chunks.map Chunk.data_size).sum)) ∧
      (s.write.pc ≠ .returned → ∃ s', step D s (.write .success) = some s') ∧
      (s.feed = [] → ∀ as s', Lts.run (step D) Undisturbed s as = some s' →
        as.countP isWrite ≤ 16 * waiting s.write s.write_queue + 13) ∧
      (0 < que_size → ∃ s', Lts.Reach (step D) Undisturbed s s' ∧ s'.write.pc = .returned) := by
  refine ⟨fun s h => ?_, fun s h => ?_⟩
  · have hB := (reach_budget hs h).size
    refine ⟨hB, fun c hc => ?_⟩
    obtain ⟨hsize, h64⟩ := no_wrap hs h hc
    refine ⟨hsize, h64, ?_⟩
    rw [hsize, bytesToWrite_eq hB D.size_lt h64]
    exact min_le_left _ _
  · have hI := reach_inv h.reachable
    have hC := reach_calm hs h
    refine ⟨fun hp => ?_, fun hp => ?_, fun hfeed as s' hrun => writes_le hs hI hC hfeed hrun, fun hq => ?_⟩
    · calc s.write.written
          = D.output := hI.past (by unfold Past; rw [hp]; exact hC.calm)
        _ = (D.chunks.flatMap Chunk.bytes).take D.size := if_pos hs
        _ = (D.chunks.flatMap Chunk.bytes).take (min D.size (D.chunks.map Chunk.data_size).sum) := by
          rw [← length_bytes D.handed, ← List.take_eq_take_min]
    · obtain ⟨⟨l, fl, inq, fs⟩, hstep⟩ :=
        continues D.params s.fl s.fs hC.opened.2 hC.holding hp
      exact ⟨_, by rw [step, hstep]; rfl⟩
    · obtain ⟨s', hr, -, hp⟩ := Lts.leads (I := fun s => Inv D fs s ∧ Calm que_size s)
        (P := fun s => s.write.pc = .returned) (fuel D)
        (fun s hI hp => fuel_step hs hq hI.1 hI.2 hp) _ s le_rfl ⟨hI, hC⟩
      exact ⟨s', hr, hp⟩

/-- Two blocks of which 40 bytes are to be written: the size lies in the second one. -/
def sampleSized : Delivery where
  params := ⟨true, [2], [1]⟩
  chunks := [⟨.DECRYPT, [1, 2, 3, 4], 32⟩, ⟨.DECRYPT, [5, 6, 7, 8], 32⟩]
  size := 40
  handed := by simp [Handed, Chunk.bytes]
  size_lt := by decide
  fits := fun _ => by simp [Chunk.bytes]

theorem writes_size_sample :
    ∃ s, Lts.Reach (step sampleSized) Undisturbed (start sampleSized (fun _ => none) QUE_SIZE) s ∧
      s.write.pc = .returned ∧ s.write.written = (bytesOf [1, 2, 3, 4, 5, 6, 7, 8]).take 40 := by
  obtain ⟨s, hs, hp⟩ := (((writes_size sampleSized rfl (fun _ => none) QUE_SIZE).2 _ .refl).2.2.2 (by decide))
  have hw := ((writes_size sampleSized rfl (fun _ => none) QUE_SIZE).2 s hs).1 hp
  exact ⟨s, hs, hp, hw⟩

end WriterSize

end Threefizer
