/-
# The decryption pipeline

`queueFileForDecrypt`, `authenticateMAC`, `decryptQueue` and `asyncWrite` run
at the same time, joined by three queues. A step is a step of one of them.

`Inv` holds in every state of every run. Its parts are
* `flow`: undisturbed, each thread is about to put out what it would put out
  alone, and what is written and still to be written is the plaintext cut to
  the size in the header;
* `quiet`: before the header check has passed nothing is behind it;
* `sees`, `verdict`, `judged`: a tag that is compared is the stored one, and
  it is compared with the MAC of the whole header and ciphertext;
* `past`: a writer past its loop with no error has written all of that.
-/
import Threefizer.DecryptFile
import Threefizer.Lib.Lts

namespace Threefizer

open Words Queue

namespace DecryptRun

/-- The four threads. -/
inductive Thread
  | read | mac | crypt | write
  deriving DecidableEq, Repr

/-- What the threads share and where each of them stands. -/
structure State (J : Job) where
  fl : Flags
  read : Reader.Local
  mac : AuthThread.Local J.sk
  crypt : DecryptThread.Local
  write : WriteThread.Local
  mac_queue : Queue
  crypto_queue : Queue
  write_queue : Queue
  fs : FileSystem

variable (J : Job)

def reader : Reader := decryptReader J.file J.state_size J.max_chunk

def writeParams : WriteParams := ⟨true, J.temp_file_name, J.destination⟩

/-- The state when the threads start. -/
def start (fs : FileSystem) : State J where
  fl := .init
  read := .init
  mac := .init J.mac_context
  crypt := .init J.tf_key
  write := .init
  mac_queue := createQueue J.que_size
  crypto_queue := createQueue J.que_size
  write_queue := createQueue J.que_size
  fs := fs

variable {J}

/-- A step of one thread, and how the call in it that can fail ends. -/
def step (s : State J) (a : Thread × Outcome) : Option (State J) :=
  match a.1 with
  | .read => ((reader J).step s.read s.fl s.mac_queue a.2).map fun (l, fl, out) =>
      { s with read := l, fl := fl, mac_queue := out }
  | .mac => (AuthThread.step J.tf J.tf_key J.mac_context s.mac s.fl s.mac_queue s.crypto_queue a.2).map
      fun (l, fl, inq, out) => { s with mac := l, fl := fl, mac_queue := inq, crypto_queue := out }
  | .crypt => (DecryptThread.step J.tf J.tf_key s.crypt s.fl s.crypto_queue s.write_queue a.2).map
      fun (l, fl, inq, out) => { s with crypt := l, fl := fl, crypto_queue := inq, write_queue := out }
  | .write => (WriteThread.step (writeParams J) s.write s.fl s.write_queue s.fs a.2).map
      fun (l, fl, inq, fs) => { s with write := l, fl := fl, write_queue := inq, fs := fs }

/-! ### The steps -/

/-- The steps by thread. -/
inductive Moves (s : State J) : Thread → State J → Prop
  | read {l : Reader.Local} {fl : Flags} {out : Queue} :
      (reader J).Moves s.read s.fl s.mac_queue l fl out →
      Moves s .read { s with read := l, fl := fl, mac_queue := out }
  | mac {l : AuthThread.Local J.sk} {fl : Flags} {inq out : Queue} :
      AuthThread.Moves J.tf J.tf_key J.mac_context s.mac s.fl s.mac_queue s.crypto_queue l fl inq out →
      Moves s .mac { s with mac := l, fl := fl, mac_queue := inq, crypto_queue := out }
  | crypt {l : DecryptThread.Local} {fl : Flags} {inq out : Queue} :
      DecryptThread.Moves J.tf J.tf_key s.crypt s.fl s.crypto_queue s.write_queue l fl inq out →
      Moves s .crypt { s with crypt := l, fl := fl, crypto_queue := inq, write_queue := out }
  | write {l : WriteThread.Local} {fl : Flags} {inq : Queue} {fs : FileSystem} :
      WriteThread.Moves (writeParams J) s.write s.fl s.write_queue s.fs l fl inq fs →
      Moves s .write { s with write := l, fl := fl, write_queue := inq, fs := fs }

theorem moves_of_step {s s' : State J} {a : Thread × Outcome} (h : step s a = some s') :
    Moves s a.1 s' := by
  obtain ⟨t, o⟩ := a
  cases t <;> obtain ⟨⟨_, _⟩, hx, rfl⟩ := Option.map_eq_some_iff.mp h
  · exact .read (Reader.moves_of_step hx)
  · exact .mac (AuthThread.moves_of_step hx)
  · exact .crypt (DecryptThread.moves_of_step hx)
  · exact .write (WriteThread.moves_of_step hx)

/-! ### The invariant -/

/-- The threads run undisturbed. -/
def Live (s : State J) : Prop := s.fl.running = true ∧ s.fl.error = none

variable (J)

/-- The MAC of all that is authenticated, before it is finished. -/
def finalCtx : J.sk.Ctx := J.sk.skeinUpdate J.mac_context.skein_context J.authenticated

/-- The bytes to be written: as many of the plaintext as the header says. -/
def output : List Byte := J.plaintext.take (J.headerSize.getD 0)

variable {J}

/-- Each thread is about to put out what it would put out alone. -/
def Flow (s : State J) : Prop :=
  ∃ x a d, (reader J).Rest s.read x ∧
    AuthThread.Rest J.mac_context (checkChunk J.file J.state_size) (macChunk J.file J.state_size) (finalCtx J)
      s.mac (s.mac_queue.elements ++ x) a ∧
    DecryptThread.Rest J.tf J.tf_key s.crypt (s.crypto_queue.elements ++ a) d ∧
    WriteThread.Rest (some (J.headerSize.getD 0)) s.write (s.write_queue.elements ++ d) (output J)

/-- Nothing is behind a header that is not checked. -/
def Quiet (s : State J) : Prop :=
  s.mac.header = true → s.crypto_queue.elements = [] ∧ DecryptThread.Idle s.crypt ∧
    s.write_queue.elements = [] ∧ s.write.write_chunk = none

/-- What holds in every state of every run. -/
structure Inv (s : State J) : Prop where
  readReady : Reader.Ready s.read s.mac_queue
  macReady : AuthThread.Ready s.mac s.crypto_queue
  cryptReady : DecryptThread.Ready s.crypt s.write_queue
  stopped : s.fl.running = false → s.write.pc = .returned
  valid : s.fl.valid = !s.mac.header
  sized : s.write.pc = .testSize → s.fl.valid = true
  checking : AuthThread.Checking s.mac
  sizeRead : s.fl.error = none →
    AuthThread.SizeRead J.tf J.tf_key (checkChunk J.file J.state_size) s.mac s.fl
  sees : AuthThread.Sees (macChunk J.file J.state_size) (finalCtx J) s.mac s.fl s.mac_queue
  verdict : AuthThread.Verdict (macChunk J.file J.state_size) (finalCtx J) s.mac
  judged : AuthThread.Judged J.mac_context s.mac s.fl
  quiet : Live s → Quiet s
  flow : Live s → Flow s
  past : WriteThread.Past s.write s.fl → s.write.written = output J ∧ s.mac.header = false

/-- The hypotheses on the file: longer than three blocks, and of a length the
reader can count in 64 bits, as every file is (its length is below `2^63`). -/
structure Admissible (J : Job) : Prop where
  big : isGreaterThanThreeBlocks J.file.length J.state_size = true
  fits : J.file.length + 2 * J.state_size.bytes < 2 ^ 64

theorem start_flow (hJ : Admissible J) (fs : FileSystem) : Flow (start J fs) := by
  obtain ⟨es, hes, hact, hbytes⟩ := decryptQueue_plan hJ.big
  have hn : J.headerSize.getD 0 < 2 ^ 64 := by
    cases h : J.headerSize with
    | none => exact Nat.two_pow_pos 64
    | some n => exact checkHeader_lt h
  have hw := asyncWrite_plan hJ.big hJ.fits hn hact hbytes
  set ds := checkChunk J.file J.state_size :: macPlan J.file J.state_size J.max_chunk with hds
  have hleft : AuthThread.Left (macChunk J.file J.state_size) ds
      (decryptPlan J.file J.state_size J.max_chunk ++ [doneChunk]) := by
    refine ⟨fun d hd => ?_, by simp [decryptPlan, hds]⟩
    rcases List.mem_cons.mp hd with rfl | hd
    · rfl
    · obtain ⟨p, -, rfl⟩ := List.mem_map.mp hd
      rfl
  have hfeed : @AuthThread.feed J.sk J.mac_context.skein_context ds = finalCtx J := by
    rw [AuthThread.feed, hds, foldl_skeinUpdate, flatMap_bytes_plan hJ.big]; rfl
  exact ⟨decryptPlan J.file J.state_size J.max_chunk ++ [doneChunk],
    ds.map (AuthThread.passed J.mac_context) ++ [doneChunk], es ++ [doneChunk],
    ⟨rfl, _, decryptReader_reads hJ.big J.max_chunk_pos (J.reads _) hJ.fits, rfl⟩,
    Or.inl ⟨rfl, rfl, ds, hleft, hfeed, rfl, fun _ => rfl⟩, ⟨rfl, hes⟩, _, hw, rfl⟩

theorem start_inv (hJ : Admissible J) (fs : FileSystem) : Inv (start J fs) where
  readReady := by rintro (h | h) <;> cases h
  macReady := by rintro (h | h) <;> cases h
  cryptReady := by rintro h; cases h
  stopped := fun h => by cases h
  valid := rfl
  sized := fun h => by cases h
  checking := by rintro (h | h) <;> cases h
  sizeRead := by rintro - (h | h) <;> cases h
  sees := trivial
  verdict := rfl
  judged := trivial
  quiet := fun _ _ => ⟨rfl, ⟨rfl, nofun, nofun, nofun⟩, rfl, rfl⟩
  flow := fun _ => start_flow hJ fs
  past := fun h => h.elim

section Step

variable {s s' : State J} {t : Thread}

/-- A step sets no flag that is cleared and clears no error. -/
theorem Moves.later (h : Moves s t s') : s.fl.Later s'.fl := by
  cases h with
  | read h => exact Flags.later_of_error h.flags
  | mac h => exact h.later
  | crypt h => exact Flags.later_of_error h.flags
  | write h => exact h.later

theorem Live.of_moves (h : Moves s t s') (hlive : Live s') : Live s :=
  ⟨h.later.1 hlive.1, h.later.2 hlive.2⟩

/-- `running` is cleared as the last thing. -/
theorem Inv.runs (hI : Inv s) (hp : s.write.pc ≠ .returned) : s.fl.running = true := by
  by_contra hf
  exact hp (hI.stopped (by simpa using hf))

/-- A header that is done has the size in the flags. -/
theorem Inv.size (hI : Inv s) (herr : s.fl.error = none) (hh : s.mac.header = false) :
    J.headerSize = some s.fl.new_file_size := hI.sizeRead herr (Or.inl hh)

/-- While the threads run undisturbed the writer knows no size but that in the header. -/
theorem Inv.writeSized (hI : Inv s) (hlive : Live s) :
    WriteThread.Sized (some (J.headerSize.getD 0)) s.write s.fl := by
  intro n hn
  cases hn
  have hvalid : s.fl.valid = true → s.mac.header = false := fun hv => by
    have := hI.valid; rw [hv] at this; simpa using this.symm
  refine ⟨fun h => ?_, fun hc => ?_⟩
  · rw [hI.size hlive.2 (hvalid (h.elim id hI.sized))]; rfl
  · by_contra hv
    have hh : s.mac.header = true := by
      have := hI.valid
      rw [show s.fl.valid = false by simpa using hv] at this
      simpa using this.symm
    exact hc (hI.quiet hlive hh).2.2.2

theorem Flow.step (h : Moves s t s') (hI : Inv s) (hlive : Live s) (hlive' : Live s')
    (hF : Flow s) : Flow s' := by
  obtain ⟨x, a, d, hx, ha, hd, hw⟩ := hF
  cases h with
  | read h =>
    obtain ⟨x', hx', hcons⟩ := h.rest hlive.1 hlive.2 hlive'.2 hI.readReady hx
    exact ⟨x', a, d, hx', by rw [hcons]; exact ha, hd, hw⟩
  | mac h =>
    obtain ⟨a', ha', hcons⟩ := h.rest hlive.1 hlive.2 hlive'.2 hI.macReady (out_action_ne J) rfl ha
    exact ⟨x, a', d, hx, ha', by rw [hcons]; exact hd, hw⟩
  | crypt h =>
    obtain ⟨d', hd', hcons⟩ := h.rest hlive.1 hlive.2 hlive'.2 hI.cryptReady hd
    exact ⟨x, a, d', hx, ha, hd', by rw [hcons]; exact hw⟩
  | write h =>
    exact ⟨x, a, d, hx, ha, hd,
      h.rest hlive'.1 hlive.1 hlive.2 hlive'.2 rfl (hI.writeSized hlive) hw⟩

/-- Behind an unchecked header nothing can move. -/
theorem Quiet.step (h : Moves s t s') (hlive : Live s) (herr' : s'.fl.error = none)
    (hF : Flow s) (hQ : Quiet s) : Quiet s' := by
  obtain ⟨x, a, d, hx, ha, hd, hw⟩ := hF
  intro hh
  cases h with
  | read h => exact hQ hh
  | mac h =>
    obtain ⟨hc, hidle, hq, hw⟩ := hQ (h.header hh)
    exact ⟨by rw [h.quiet ha herr' hh]; exact hc, hidle, hq, hw⟩
  | crypt h =>
    obtain ⟨hc, hidle, hq, hw⟩ := hQ hh
    obtain ⟨hidle', hin, hout⟩ := h.idle hlive.1 hlive.2 hc hidle
    exact ⟨by rw [hin]; exact hc, hidle', by rw [hout]; exact hq, hw⟩
  | write h =>
    obtain ⟨hc, hidle, hq, hw⟩ := hQ hh
    obtain ⟨hin, hw'⟩ := h.no_chunk hq hw
    exact ⟨hc, hidle, by rw [hin]; exact hq, hw'⟩

/-- The chunk whose header is checked is the first of the file. -/
theorem Inv.headerChunk (hI : Inv s) (herr : s.fl.error = none) (hp : s.mac.pc = .headerAlloc) :
    s.mac.mac_chunk = some (checkChunk J.file J.state_size) := by
  by_cases hrun : s.fl.running = true
  · obtain ⟨x, a, d, -, ha, -, -⟩ := hI.flow ⟨hrun, herr⟩
    unfold AuthThread.Rest at ha
    rw [hp] at ha
    exact ha.2.2.1
  · -- the writer is done only once the header is
    have hpast : WriteThread.Past s.write s.fl := by
      unfold WriteThread.Past
      rw [hI.stopped (by simpa using hrun)]
      exact herr
    exact absurd ((hI.past hpast).2.symm.trans (hI.checking (Or.inl hp))) (by decide)

theorem Inv.step (h : Moves s t s') (hI : Inv s) : Inv s' := by
  have hflow : Live s' → Flow s' := fun hlive' =>
    Flow.step h hI (hlive'.of_moves h) hlive' (hI.flow (hlive'.of_moves h))
  have hquiet : Live s' → Quiet s' := fun hlive' =>
    have hlive := hlive'.of_moves h
    Quiet.step h hlive hlive'.2 (hI.flow hlive) (hI.quiet hlive)
  have hlater := h.later
  cases h with
  | read h =>
    have hrun := Flags.running_of_error h.flags
    obtain ⟨hv, hn⟩ := Flags.size_of_error h.flags
    exact { hI with
      readReady := h.ready
      stopped := fun h => hI.stopped (hrun ▸ h)
      valid := hv.trans hI.valid
      sized := fun hp => hv.trans (hI.sized hp)
      sizeRead := fun he hh => hn.symm ▸ hI.sizeRead (hlater.2 he) hh
      sees := hI.sees.mono hlater.1 hlater.2 fun _ => h.front
      judged := hI.judged.mono hlater.2
      quiet := hquiet
      flow := hflow
      past := fun h => hI.past (h.mono hlater.2) }
  | mac h =>
    have hrun := h.keeps_running
    exact { hI with
      readReady := hI.readReady.of_takes h.takes
      macReady := h.ready
      stopped := fun h => hI.stopped (hrun ▸ h)
      valid := h.valid hI.valid
      sized := fun hp => h.keeps_valid (hI.sized hp)
      checking := h.checking hI.checking
      sizeRead := fun he => h.sizeRead (hI.headerChunk (hlater.2 he)) (hI.sizeRead (hlater.2 he))
      sees := h.sees rfl (fun hr he => by
        obtain ⟨x, a, d, -, ha, -, -⟩ := hI.flow ⟨hr, he⟩
        exact ⟨x, a, ha⟩) hI.sees
      verdict := h.verdict hI.sees hI.verdict
      judged := h.judged hI.judged
      quiet := hquiet
      flow := hflow
      past := fun hp => by
        obtain ⟨hw, hh⟩ := hI.past (hp.mono hlater.2)
        exact ⟨hw, by by_contra hh'; exact absurd (hh.symm.trans (h.header (by simpa using hh'))) (by decide)⟩ }
  | crypt h =>
    have hrun := Flags.running_of_error h.flags
    obtain ⟨hv, hn⟩ := Flags.size_of_error h.flags
    exact { hI with
      macReady := hI.macReady.of_takes h.takes
      cryptReady := h.ready
      stopped := fun h => hI.stopped (hrun ▸ h)
      valid := hv.trans hI.valid
      sized := fun hp => hv.trans (hI.sized hp)
      sizeRead := fun he hh => hn.symm ▸ hI.sizeRead (hlater.2 he) hh
      sees := hI.sees.mono hlater.1 hlater.2 fun _ => id
      judged := hI.judged.mono hlater.2
      quiet := hquiet
      flow := hflow
      past := fun h => hI.past (h.mono hlater.2) }
  | @write l fl inq fs h =>
    have hrun := hI.runs h.not_returned
    obtain ⟨hv, hn⟩ := h.keeps_size
    exact { hI with
      cryptReady := hI.cryptReady.of_takes h.takes
      stopped := h.clears_last hrun
      valid := hv.trans hI.valid
      sized := h.sized
      sizeRead := fun he hh => hn.symm ▸ hI.sizeRead (hlater.2 he) hh
      sees := hI.sees.mono hlater.1 hlater.2 fun _ => id
      judged := hI.judged.mono hlater.2
      quiet := hquiet
      flow := hflow
      past := by
        intro hp
        rcases h.past hrun hp with ⟨hp', hw⟩ | ⟨rfl, he, -, hexit⟩
        · exact ⟨hw.trans (hI.past hp').1, (hI.past hp').2⟩
        · obtain ⟨x, a, d, -, -, -, hw⟩ := hflow ⟨hrun, he⟩
          refine ⟨hw.past hp, ?_⟩
          by_contra hh
          have hh : s.mac.header = true := by simpa using hh
          rcases hexit with ⟨c, hc, -⟩ | ⟨hts, -⟩
          · exact absurd (hc.symm.trans (hquiet ⟨hrun, he⟩ hh).2.2.2) nofun
          · exact absurd ((hI.sized hts).symm.trans (hI.valid.trans (by rw [hh]))) (by decide) }

/-- In every run. -/
theorem reachable_inv {s₀ : State J} (h0 : Inv s₀) (h : Lts.Reachable step s₀ s) : Inv s :=
  h.invariant h0 fun _ _ _ hI _ hs => hI.step (moves_of_step hs)

end Step

/-! ### What a run without error has done -/

/-- All threads have returned. -/
def Returned (s : State J) : Prop :=
  s.read.pc = .returned ∧ s.mac.pc = .returned ∧ s.crypt.pc = .returned ∧ s.write.pc = .returned

instance (s : State J) : Decidable (Returned s) := inferInstanceAs (Decidable (_ ∧ _))

/-- A tag that was accepted is the MAC of all that is authenticated. -/
theorem Inv.accepted {s : State J} (hJ : Admissible J) (hI : Inv s)
    (hacc : AuthThread.Accepted J.mac_context s.mac) :
    J.storedTag = J.sk.tag J.state_size J.mac_key J.authenticated := by
  obtain ⟨m, hm, -, heq⟩ := hacc
  obtain ⟨rfl, hmac⟩ := hI.verdict.stored hm
  rw [hmac] at heq
  exact (accepts_macChunk hJ.big _).mp heq

/-- What has been checked when all threads have returned without error, and
what has been written. -/
theorem Inv.returned {s : State J} (hJ : Admissible J) (hI : Inv s) (hret : Returned s) (herr : s.fl.error = none) :
    ∃ n, J.headerSize = some n ∧ J.storedTag = J.sk.tag J.state_size J.mac_key J.authenticated ∧
      s.write.written = J.plaintext.take n := by
  obtain ⟨-, hmac, -, hwrite⟩ := hret
  have hpast : WriteThread.Past s.write s.fl := by
    unfold WriteThread.Past
    rw [hwrite]
    exact herr
  have hn := hI.size herr (hI.past hpast).2
  have hjudged := hI.judged
  unfold AuthThread.Judged at hjudged
  rw [hmac] at hjudged
  refine ⟨_, hn, hI.accepted hJ (hjudged.resolve_left (not_not.mpr herr)), ?_⟩
  rw [(hI.past hpast).1, output, hn]
  rfl

/-- A decryption that ends with no error has checked the header, found the
stored tag to be the MAC of all that lies before it, and written as many bytes
of the plaintext as the header says. -/
theorem success_sound (J : Job) (hJ : Admissible J) (fs : FileSystem) (s : State J)
    (hs : Lts.Reachable step (start J fs) s) (hret : Returned s) (herr : s.fl.error = none) :
    ∃ n, J.headerSize = some n ∧
      J.storedTag = J.sk.tag J.state_size J.mac_key J.authenticated ∧
      s.write.written = J.plaintext.take n := by
  have hI := reachable_inv (start_inv hJ fs) hs
  obtain ⟨-, hmac, -, hwrite⟩ := hret
  have hpast : WriteThread.Past s.write s.fl := by
    unfold WriteThread.Past
    rw [hwrite]
    exact herr
  obtain ⟨hw, hh⟩ := hI.past hpast
  have hn := hI.size herr hh
  refine ⟨s.fl.new_file_size, hn, ?_, ?_⟩
  · have hj := hI.judged
    unfold AuthThread.Judged at hj
    rw [hmac] at hj
    exact hI.accepted hJ (hj.resolve_left (not_not.mpr herr))
  · rw [hw, output, hn]
    rfl

/-- Steps of one thread in which no call fails. -/
def steps (t : Thread) (n : ℕ) : List (Thread × Outcome) := List.replicate n (t, .success)

theorem sample_admissible : Admissible (Skein3fish.sampleJob false Skein3fish.sampleFile) :=
  ⟨by decide +kernel, by decide +kernel⟩

theorem success_sound_sample :
    ∃ s : State (Skein3fish.sampleJob false Skein3fish.sampleFile),
      Lts.Reachable step (start _ fun _ => none) s ∧ Returned s ∧ s.fl.error = none ∧
      ∃ n, (Skein3fish.sampleJob false Skein3fish.sampleFile).headerSize = some n ∧
        (Skein3fish.sampleJob false Skein3fish.sampleFile).storedTag =
          Skein3fish.skein.tag .Skein256 (Skein3fish.sampleJob false Skein3fish.sampleFile).mac_key
            (Skein3fish.sampleJob false Skein3fish.sampleFile).authenticated ∧
        s.write.written = (Skein3fish.sampleJob false Skein3fish.sampleFile).plaintext.take n := by
  have hrun : (Lts.run step (fun _ _ => True) (start (Skein3fish.sampleJob false Skein3fish.sampleFile) fun _ => none)
      (steps .read 17 ++ steps .mac 24 ++ steps .crypt 13 ++ steps .write 14)).any
        (fun s => decide (Returned s ∧ s.fl.error = none)) = true := by decide +kernel
  obtain ⟨s, hs, hp⟩ := Lts.Reach.of_run_any hrun
  obtain ⟨hret, herr⟩ := of_decide_eq_true hp
  exact ⟨s, hs, hret, herr, success_sound _ sample_admissible _ s hs hret herr⟩

end DecryptRun

end Threefizer
