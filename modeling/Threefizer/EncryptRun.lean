/-
# The encryption pipeline

`queueFileForEncrypt`, `encryptQueue`, `generateMAC` and `asyncWrite` run at
the same time, joined by three queues. A step is a step of one of them.

As long as `running` is set and there is no error, what each thread has still
to put out, behind what its queue already holds, is what it would put out if
the threads were run one after the other (`Flow`). So the writer writes a
start of the sequential result, and all of it before it renames
(`refines_sequential`).
-/
import Threefizer.EncryptFile
import Threefizer.Lib.Lts

namespace Threefizer

open Words Queue

namespace EncryptRun

/-- The four threads. -/
inductive Thread
  | read | crypt | mac | write
  deriving DecidableEq, Repr

/-- What the threads share and where each of them stands. -/
structure State (J : Job) where
  fl : Flags
  read : Reader.Local
  crypt : EncryptThread.Local
  mac : GenerateThread.Local J.sk
  write : WriteThread.Local
  crypto_queue : Queue
  mac_queue : Queue
  write_queue : Queue
  fs : FileSystem

variable (J : Job)

def reader : Reader := encryptReader J.file J.state_size J.max_chunk

def writeParams : WriteParams := ⟨false, J.temp_file_name, J.destination⟩

/-- The state when the threads start. -/
def State.init (crypto_queue : Queue) (fs : FileSystem) : State J where
  fl := .init
  read := .init
  crypt := .init J.tf_key
  mac := .init J.mac_context
  write := .init
  crypto_queue := crypto_queue
  mac_queue := createQueue J.que_size
  write_queue := createQueue J.que_size
  fs := fs

/-- The threads are started when the header is queued. -/
def start (fs : FileSystem) : Option (State J) :=
  match queueHeader J.args (createQueue J.que_size) with
  | some (true, crypto_queue) => some (State.init J crypto_queue fs)
  | _ => none

variable {J}

/-- A step of one thread, and how the call in it that can fail ends. -/
def step (s : State J) (a : Thread × Outcome) : Option (State J) :=
  match a.1 with
  | .read => ((reader J).step s.read s.fl s.crypto_queue a.2).map fun (l, fl, out) =>
      { s with read := l, fl := fl, crypto_queue := out }
  | .crypt => (EncryptThread.step J.tf J.tf_key s.crypt s.fl s.crypto_queue s.mac_queue a.2).map
      fun (l, fl, inq, out) => { s with crypt := l, fl := fl, crypto_queue := inq, mac_queue := out }
  | .mac => (GenerateThread.step J.mac_context s.mac s.fl s.mac_queue s.write_queue).map
      fun (l, fl, inq, out) => { s with mac := l, fl := fl, mac_queue := inq, write_queue := out }
  | .write => (WriteThread.step (writeParams J) s.write s.fl s.write_queue s.fs a.2).map
      fun (l, fl, inq, fs) => { s with write := l, fl := fl, write_queue := inq, fs := fs }

/-- All threads have returned. -/
def Returned (s : State J) : Prop :=
  s.read.pc = .returned ∧ s.crypt.pc = .returned ∧ s.mac.pc = .returned ∧ s.write.pc = .returned

instance (s : State J) : Decidable (Returned s) := inferInstanceAs (Decidable (_ ∧ _))

/-! ### The steps -/

/-- The steps by thread. -/
inductive Moves (s : State J) : Thread → State J → Prop
  | read {l : Reader.Local} {fl : Flags} {out : Queue} :
      (reader J).Moves s.read s.fl s.crypto_queue l fl out →
      Moves s .read { s with read := l, fl := fl, crypto_queue := out }
  | crypt {l : EncryptThread.Local} {fl : Flags} {inq out : Queue} :
      EncryptThread.Moves J.tf J.tf_key s.crypt s.fl s.crypto_queue s.mac_queue l fl inq out →
      Moves s .crypt { s with crypt := l, fl := fl, crypto_queue := inq, mac_queue := out }
  | mac {l : GenerateThread.Local J.sk} {fl : Flags} {inq out : Queue} :
      GenerateThread.Moves J.mac_context s.mac s.fl s.mac_queue s.write_queue l fl inq out →
      Moves s .mac { s with mac := l, fl := fl, mac_queue := inq, write_queue := out }
  | write {l : WriteThread.Local} {fl : Flags} {inq : Queue} {fs : FileSystem} :
      WriteThread.Moves (writeParams J) s.write s.fl s.write_queue s.fs l fl inq fs →
      Moves s .write { s with write := l, fl := fl, write_queue := inq, fs := fs }

theorem moves_of_step {s s' : State J} {a : Thread × Outcome} (h : step s a = some s') :
    Moves s a.1 s' := by
  obtain ⟨t, o⟩ := a
  cases t <;> obtain ⟨⟨_, _⟩, hx, rfl⟩ := Option.map_eq_some_iff.mp h
  · exact .read (Reader.moves_of_step hx)
  · exact .crypt (EncryptThread.moves_of_step hx)
  · exact .mac (GenerateThread.moves_of_step hx)
  · exact .write (WriteThread.moves_of_step hx)

/-! ### The invariant -/

/-- The threads run undisturbed. -/
def Live (s : State J) : Prop := s.fl.running = true ∧ s.fl.error = none

/-- Each thread is about to put out what it would put out alone, given what
its queue holds and the thread before it is about to put out; the bytes written
and still to be written are `image`. -/
def Flow (image : List Byte) (s : State J) : Prop :=
  ∃ x e g, (reader J).Rest s.read x ∧
    EncryptThread.Rest J.tf J.tf_key s.crypt (s.crypto_queue.elements ++ x) e ∧
    DoneLast (s.mac_queue.elements ++ e) ∧
    GenerateThread.Rest J.mac_context s.mac (s.mac_queue.elements ++ e) g ∧
    WriteThread.Rest none s.write (s.write_queue.elements ++ g) image

/-- What holds in every state of every run. -/
structure Inv (image : List Byte) (s : State J) : Prop where
  room : 0 < s.mac_queue.capacity
  readReady : Reader.Ready s.read s.crypto_queue
  cryptReady : EncryptThread.Ready s.crypt s.mac_queue
  macReady : GenerateThread.Ready s.mac s.write_queue
  fresh : EncryptThread.Fresh s.crypt s.mac_queue
  stopped : s.fl.running = false → s.write.pc = .returned
  past : WriteThread.Past s.write s.fl → s.write.written = image
  flow : Live s → Flow image s

theorem start_inv {iv : List Word} (hiv : J.args.iv = some iv) (hlen : iv.length = J.state_size.words)
    (hsize : 2 ≤ J.file.length) (hcap : 0 < J.que_size) (fs : FileSystem) :
    ∃ s₀, start J fs = some s₀ ∧ Inv (J.image iv) s₀ := by
  obtain ⟨q, hq, -, -, hel⟩ := queueHeader_eq hiv hlen hsize hcap
  have hm := J.max_chunk_pos
  obtain ⟨es, hes, hne, hact, hbytes⟩ := encryptQueue_plan hiv hlen hsize hm J.max_chunk_dvd (J.reads _)
  obtain ⟨ms, hms, himg⟩ := generateMAC_plan hne hact hbytes
  have hlast : DoneLast (es ++ [doneChunk]) :=
    doneLast_concat (fun e he => by rw [(hact e he).1]; decide) _
  have hflow : Flow (J.image iv) (State.init J q fs) := by
    refine ⟨encryptPlan J.file J.state_size J.max_chunk ++ [doneChunk], es ++ [doneChunk],
      ms ++ [doneChunk], ⟨rfl, _, encryptReader_reads hm (J.reads _), rfl⟩, ⟨rfl, ?_⟩, hlast,
      Or.inl ⟨rfl, hms⟩, _, himg, rfl⟩
    show EncryptThread.encryptQueue _ _ _ (q.elements ++ _) = _
    rw [hel]
    exact hes
  refine ⟨State.init J q fs, by simp only [start, hq], ?_⟩
  exact
    { room := hcap
      readReady := by rintro (h | h) <;> cases h
      cryptReady := by rintro (h | h) <;> cases h
      macReady := by rintro (h | h | h) <;> cases h
      fresh := fun _ => rfl
      stopped := fun h => by cases h
      past := fun h => h.elim
      flow := fun _ => hflow }

section Step

variable {image : List Byte} {s s' : State J} {t : Thread}

/-- `running` is cleared as the last thing. -/
theorem Inv.runs (hI : Inv image s) (hp : s.write.pc ≠ .returned) : s.fl.running = true := by
  by_contra hf
  exact hp (hI.stopped (by simpa using hf))

theorem Flow.step (h : Moves s t s') (hI : Inv image s) (hlive : Live s) (hlive' : Live s')
    (hF : Flow image s) : Flow image s' := by
  obtain ⟨x, e, g, hx, he, hlast, hg, hw⟩ := hF
  cases h with
  | read h =>
    obtain ⟨x', hx', hcons⟩ := h.rest hlive.1 hlive.2 hlive'.2 hI.readReady hx
    exact ⟨x', e, g, hx', by rw [hcons]; exact he, hlast, hg, hw⟩
  | crypt h =>
    obtain ⟨e', he', hcons⟩ := h.rest hlive.1 hlive.2 hlive'.2 hI.cryptReady hI.fresh hI.room he
    exact ⟨x, e', g, hx, he', by rw [hcons]; exact hlast, by rw [hcons]; exact hg, hw⟩
  | mac h =>
    obtain ⟨g', hg', hcons⟩ := h.rest hlive'.2 hI.macReady hlast hg
    refine ⟨x, e, g', hx, he, ?_, hg', by rw [hcons]; exact hw⟩
    rcases h.takes with h' | h' <;> rw [h']
    · exact hlast
    · cases hel : s.mac_queue.elements with
      | nil => rw [hel] at hlast; simpa [hel] using hlast
      | cons c cs => rw [hel] at hlast; simpa [hel] using hlast.tail
  | write h =>
    exact ⟨x, e, g, hx, he, hlast, hg, h.rest hlive'.1 hlive.1 hlive.2 hlive'.2 rfl (fun _ h => by cases h) hw⟩

/-- A step sets no flag that is cleared and clears no error. -/
theorem Moves.later (h : Moves s t s') : s.fl.Later s'.fl := by
  cases h with
  | read h => exact Flags.later_of_error h.flags
  | crypt h => exact Flags.later_of_error h.flags
  | mac h => exact Flags.later_of_error h.flags
  | write h => exact h.later

theorem Live.of_moves (h : Moves s t s') (hlive : Live s') : Live s :=
  ⟨h.later.1 hlive.1, h.later.2 hlive.2⟩

theorem Flow.written (h : Flow image s) : ∃ ins, WriteThread.Rest none s.write ins image := by
  obtain ⟨x, e, g, -, -, -, -, hw⟩ := h
  exact ⟨_, hw⟩

theorem Inv.step (h : Moves s t s') (hI : Inv image s) : Inv image s' := by
  have hflow : Live s' → Flow image s' := fun hlive' =>
    Flow.step h hI (hlive'.of_moves h) hlive' (hI.flow (hlive'.of_moves h))
  have hlater := h.later
  cases h with
  | read h =>
    have hrun := Flags.running_of_error h.flags
    exact { hI with
      readReady := h.ready
      stopped := fun h => hI.stopped (hrun ▸ h)
      past := fun h => hI.past (h.mono hlater.2)
      flow := hflow }
  | crypt h =>
    have hrun := Flags.running_of_error h.flags
    exact { hI with
      room := h.capacity.symm ▸ hI.room
      readReady := hI.readReady.of_takes h.takes
      cryptReady := h.ready
      fresh := h.fresh hI.fresh
      stopped := fun h => hI.stopped (hrun ▸ h)
      past := fun h => hI.past (h.mono hlater.2)
      flow := hflow }
  | mac h =>
    have hrun := Flags.running_of_error h.flags
    exact { hI with
      room := by rcases h.takes with h' | h' <;> rw [h'] <;> exact hI.room
      cryptReady := hI.cryptReady.of_takes h.takes
      macReady := h.ready
      fresh := hI.fresh.of_takes h.takes
      stopped := fun h => hI.stopped (hrun ▸ h)
      past := fun h => hI.past (h.mono hlater.2)
      flow := hflow }
  | @write l fl inq fs h =>
    have hrun := hI.runs h.not_returned
    exact { hI with
      macReady := hI.macReady.of_takes h.takes
      stopped := h.clears_last hrun
      past := by
        intro hp
        rcases h.past hrun hp with ⟨hp', hw⟩ | ⟨rfl, he, -, -⟩
        · exact hw.trans (hI.past hp')
        · obtain ⟨ins, hw⟩ := (hflow ⟨hrun, he⟩).written
          exact hw.past hp
      flow := hflow }

/-- In every run. -/
theorem reachable_inv {s₀ : State J} (h0 : Inv image s₀) (h : Lts.Reachable step s₀ s) : Inv image s :=
  h.invariant h0 fun _ _ _ hI _ hs => hI.step (moves_of_step hs)

/-- With no error a start of `image` is written: undisturbed, the rest is on its
way; with `running` cleared the writer is done. -/
theorem Inv.written_prefix (hI : Inv image s) (herr : s.fl.error = none) : s.write.written <+: image := by
  by_cases hrun : s.fl.running = true
  · obtain ⟨ins, hw⟩ := (hI.flow ⟨hrun, herr⟩).written
    exact hw.prefix
  · have hp : WriteThread.Past s.write s.fl := by
      unfold WriteThread.Past
      rw [hI.stopped (by simpa using hrun)]
      exact herr
    exact hI.past hp ▸ List.prefix_rfl

theorem Inv.renamed (hI : Inv image s) (hp : s.write.pc = .rename) : s.write.written = image := by
  refine hI.past ?_
  unfold WriteThread.Past
  rw [hp]
  trivial

end Step

/-- The pipeline refines the sequential run: with no error the writer has
written a start of what the functions run one after the other produce, and
when it renames the temp file all of it. -/
theorem refines_sequential (J : Job) {iv : List Word} (hiv : J.args.iv = some iv)
    (hlen : iv.length = J.state_size.words) (hsize : 2 ≤ J.file.length) (hcap : 0 < J.que_size)
    (fs : FileSystem) :
    ∃ s₀ image, start J fs = some s₀ ∧ encryptFile J J.max_chunk = some image ∧
      ∀ s, Lts.Reachable step s₀ s →
        (s.fl.error = none → s.write.written <+: image) ∧
        (s.write.pc = .rename → s.write.written = image) := by
  obtain ⟨s₀, hs₀, h0⟩ := start_inv hiv hlen hsize hcap fs
  refine ⟨s₀, J.image iv, hs₀, encryptFile_eq hiv hlen hsize J.max_chunk_pos J.max_chunk_dvd (J.reads _),
    fun s hs => ?_⟩
  have hI := reachable_inv h0 hs
  exact ⟨hI.written_prefix, hI.renamed⟩

/-- A run up to the rename. -/
theorem refines_sequential_sample :
    ∃ s₀ image s, start (Skein3fish.sampleJob true Skein3fish.sampleText) (fun _ => none) = some s₀ ∧
      encryptFile (Skein3fish.sampleJob true Skein3fish.sampleText) MAX_CHUNK_SIZE = some image ∧
      Lts.Reachable step s₀ s ∧ s.write.pc = .rename ∧ s.write.written ≠ [] ∧ s.write.written = image := by
  have hrun : ((start (Skein3fish.sampleJob true Skein3fish.sampleText) (fun _ => none)).bind fun s₀ =>
      Lts.run step (fun _ _ => True) s₀ (List.replicate 9 (.read, .success) ++
        List.replicate 16 (.crypt, .success) ++ List.replicate 20 (.mac, .success) ++
        List.replicate 20 (.write, .success))).any
          (fun s => decide (s.write.pc = .rename ∧ s.write.written ≠ [])) = true := by decide +kernel
  obtain ⟨s, hs, hp⟩ := (Option.any_eq_true _ _).mp hrun
  obtain ⟨s₀, h0, hs⟩ := Option.bind_eq_some_iff.mp hs
  obtain ⟨hp, hne⟩ := of_decide_eq_true hp
  obtain ⟨s₁, image, h1, himage, hall⟩ :=
    refines_sequential (Skein3fish.sampleJob true Skein3fish.sampleText) rfl rfl (by decide) (by decide) fun _ => none
  obtain rfl : s₀ = s₁ := Option.some.inj (h0.symm.trans h1)
  have hs := Lts.Reach.of_run hs
  exact ⟨s₀, image, s, h0, himage, hs, hp, hne, (hall s hs).2 hp⟩

end EncryptRun

end Threefizer
