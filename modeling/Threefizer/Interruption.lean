/-
# What an interruption leaves behind

The program can be killed at any moment, and any call in a thread can fail.
The output is written to the temp file, and the destination gets it by one
`rename`: so at every moment every file but the temp file is as it was before,
or it is the destination and holds all of the output
(`interrupted_leaves_whole_files`). No rename has to succeed for that, and no
thread has to return. What a decryption has replaced the destination by is the
plaintext of a header that was accepted; that its tag is right is another
matter (`WriterExit`).

Once the error word is set the writer finishes with the chunk it is at: at most
one more is written (`error_stops_writer`).
-/
import Threefizer.Controller
import Threefizer.Memory

namespace Threefizer

open Words Queue

namespace WriteThread

/-! ### The files -/

/-- Every file but the temp file is as it was, or it is the destination and
holds all of `total`, over what was in the temp file before. -/
def Whole (P : WriteParams) (old : FileSystem) (total : Option (List Byte)) (fs : FileSystem) : Prop :=
  ∀ q, q ≠ P.temp_file_name → fs q = old q ∨
    q = P.destination ∧ ∃ out, total = some out ∧
      fs q = some (Overlay.overlay ((old P.temp_file_name).getD []) out)

variable {P : WriteParams} {old fs fs' : FileSystem} {l l' : Local} {fl fl' : Flags} {inq inq' : Queue}
  {total : Option (List Byte)}

theorem whole_old : Whole P old total old := fun _ _ => Or.inl rfl

/-- A step that renames nothing changes the temp file at most. -/
theorem Moves.temp_only (h : Moves P l fl inq fs l' fl' inq' fs') (hp : l.pc ≠ .rename) {q : Path}
    (hq : q ≠ P.temp_file_name) : fs' q = fs q := by
  cases h with
  | opened _ => exact FileSystem.set_other _ _ hq
  | wrote _ _ => exact FileSystem.set_other _ _ hq
  | notWritten _ _ _ => exact FileSystem.set_other _ _ hq
  | renamed h => exact absurd h hp
  | _ => rfl

/-- The destination is replaced at once, when all is written. -/
theorem Moves.whole (h : Moves P l fl inq fs l' fl' inq' fs') (hF : Files P old l fs)
    (hall : l.pc = .rename → total = some l.written) (hW : Whole P old total fs) : Whole P old total fs' := by
  intro q hq
  by_cases hp : l.pc = .rename
  · have hfs : fs = placed P old l := by unfold Files at hF; rwa [hp] at hF
    cases h with
    | renamed _ =>
      by_cases hd : q = P.destination
      · subst hd
        refine Or.inr ⟨rfl, _, hall hp, ?_⟩
        rw [FileSystem.rename_dst, hfs, placed, FileSystem.set_same]
      · rw [FileSystem.rename_other _ hq hd]
        exact hW q hq
    | notRenamed _ => exact hW q hq
    | _ => simp_all
  · rw [h.temp_only hp hq]
    exact hW q hq

/-- The writer is past its test for an error, and before its write. -/
def Writing (l : Local) : Prop :=
  l.pc = .fetch ∨ l.pc = .testValid ∨ l.pc = .testSize ∨ l.pc = .bytesToWrite ∨ l.pc = .writeBytes

/-- What is written when there is an error: nothing more, or one chunk of at
most `M` bytes, after which the writer does not get to a write again. -/
structure Stops (M : ℕ) (written : List Byte) (l : Local) : Prop where
  start : written <+: l.written
  bound : l.written.length ≤ written.length + M
  last : Writing l → l.written = written

theorem Stops.refl (M : ℕ) (l : Local) : Stops M l.written l :=
  ⟨List.prefix_rfl, Nat.le_add_right _ _, fun _ => rfl⟩

/-- As long as nothing is written. -/
theorem Stops.same {M : ℕ} {written : List Byte} (h : Stops M written l) (hw : l'.written = l.written)
    (hl : Writing l' → Writing l) : Stops M written l' where
  start := hw ▸ h.start
  bound := hw ▸ h.bound
  last := fun hl' => hw.trans (h.last (hl hl'))

theorem useChunk_written (l : Local) : (useChunk l).written = l.written := by
  unfold useChunk
  split <;> rfl

theorem testDone_written (P : WriteParams) (l : Local) : (testDone P l).written = l.written := by
  unfold testDone
  split
  · rfl
  · split
    · rfl
    · exact useChunk_written l

/-- The one write there can still be. -/
theorem Stops.write {M : ℕ} {written : List Byte} (h : Stops M written l) (hl : Writing l) {c : Chunk}
    (hc : c.Fits M) {data : List Byte} (hdata : data <+: c.bytes) (hw : l'.written = l.written ++ data)
    (hl' : ¬ Writing l') : Stops M written l' where
  start := by
    rw [hw, h.last hl]
    exact List.prefix_append _ _
  bound := by
    have hlen : data.length ≤ M := calc
      data.length ≤ c.bytes.length := hdata.length_le
      _ ≤ c.data_size := List.length_take_le _ _
      _ ≤ M := hc
    rw [hw, h.last hl, List.length_append]
    omega
  last := fun hl'' => absurd hl'' hl'

/-- A step that writes writes part of the chunk in hand. -/
theorem Moves.writing (h : Moves P l fl inq fs l' fl' inq' fs') (hne : l.written ≠ l'.written) :
    Writing l ∧ ∃ c data, l.write_chunk = some c ∧ data <+: c.bytes ∧ l'.written = l.written ++ data := by
  cases h with
  | kept _ _ _ | nothing _ _ _ => exact absurd (testDone_written P l).symm hne
  | taken _ _ _ => exact absurd (testDone_written P { l with write_chunk := some _ }).symm hne
  | notValid _ _ | sizeNotReached _ _ => exact absurd (useChunk_written l).symm hne
  | wrote hp hw => exact ⟨Or.inr (Or.inr (Or.inr (Or.inr hp))), _, _, hw, List.take_prefix _ _, rfl⟩
  | notWritten k hp hw =>
    exact ⟨Or.inr (Or.inr (Or.inr (Or.inr hp))), _, _, hw,
      (List.take_prefix _ _).trans (List.take_prefix _ _), rfl⟩
  | _ => exact absurd rfl hne

/-- One step with the error word set. -/
theorem Moves.stops {M : ℕ} {written : List Byte} (h : Moves P l fl inq fs l' fl' inq' fs') (herr : fl.error ≠ none)
    (hc : HoldsFit M l.write_chunk) (hS : Stops M written l) : Stops M written l' := by
  cases h with
  | empty _ he _ => exact absurd he herr
  | kept _ he _ => exact absurd he herr
  | nothing hp _ _ => exact hS.same (testDone_written P l) fun _ => Or.inl hp
  | taken hp _ _ => exact hS.same (testDone_written P _) fun _ => Or.inl hp
  | valid hp _ => exact hS.same rfl fun _ => Or.inr (Or.inl hp)
  | notValid hp _ => exact hS.same (useChunk_written l) fun _ => Or.inr (Or.inl hp)
  | sizeNotReached hp _ => exact hS.same (useChunk_written l) fun _ => Or.inr (Or.inr (Or.inl hp))
  | toWrite hp _ => exact hS.same rfl fun _ => Or.inr (Or.inr (Or.inr (Or.inl hp)))
  | wrote hp hw =>
    refine hS.write (Or.inr (Or.inr (Or.inr (Or.inr hp)))) (hc _ hw) (List.take_prefix _ _) rfl ?_
    simp [Writing]
  | notWritten k hp hw =>
    refine hS.write (Or.inr (Or.inr (Or.inr (Or.inr hp)))) (hc _ hw)
      ((List.take_prefix _ _).trans (List.take_prefix _ _)) rfl ?_
    simp [Writing]
  | _ => exact hS.same rfl fun hl => absurd hl (by simp [Writing])

end WriteThread

/-! ### Encryption -/

namespace EncryptRun

variable {J : Job} {fs : FileSystem} {s₀ s s' : State J}

theorem reachable_whole (hlen : ∀ iv, J.args.iv = some iv → iv.length = J.state_size.words) (hcap : 0 < J.que_size)
    (h0 : start J fs = some s₀) (hs : Lts.Reachable step s₀ s) :
    WriteThread.Whole (writeParams J) fs (encryptFile J J.max_chunk) s.fs := by
  obtain ⟨⟨iv, hiv⟩, hsize⟩ := start_some h0
  obtain ⟨s₁, hs₁, hI0⟩ := start_inv hiv (hlen iv hiv) hsize hcap fs
  obtain rfl : s₀ = s₁ := Option.some.inj (h0.symm.trans hs₁)
  have hstart : WriteThread.Files (writeParams J) fs s₀.write s₀.fs ∧
      WriteThread.Whole (writeParams J) fs (encryptFile J J.max_chunk) s₀.fs := by
    unfold start at h0
    split at h0
    · obtain rfl := Option.some.inj h0
      exact ⟨⟨rfl, rfl⟩, WriteThread.whole_old⟩
    · cases h0
  refine (hs.invariant' (I := fun s => WriteThread.Files (writeParams J) fs s.write s.fs ∧
      WriteThread.Whole (writeParams J) fs (encryptFile J J.max_chunk) s.fs) (J := Inv (J.image iv))
    (fun s hs => reachable_inv hI0 hs.reachable) hstart ?_).2
  rintro s ⟨t, o⟩ s' hI ⟨hF, hW⟩ - hstep
  cases moves_of_step hstep with
  | write h =>
    refine ⟨h.files hF, h.whole hF (fun hp => ?_) hW⟩
    have hpast : WriteThread.Past s.write s.fl := by unfold WriteThread.Past; rw [hp]; trivial
    rw [hI.past hpast]
    exact encryptFile_eq hiv (hlen iv hiv) hsize J.max_chunk_pos J.max_chunk_dvd (J.reads _)
  | _ => exact ⟨hF, hW⟩

theorem stops_after_error (h0 : start J fs = some s₀) (hs : Lts.Reachable step s₀ s) (herr : s.fl.error ≠ none)
    (hs' : Lts.Reachable step s s') : WriteThread.Stops J.chunk_limit s.write.written s'.write := by
  refine (hs'.invariant' (I := fun s' => s'.fl.error ≠ none ∧
      WriteThread.Stops J.chunk_limit s.write.written s'.write) (J := Bounded)
    (fun s' hs' => reachable_bounded h0 (hs.trans hs')) ⟨herr, .refl _ _⟩ ?_).2
  rintro s₁ ⟨t, o⟩ s₂ hB ⟨he, hS⟩ - hstep
  have h := moves_of_step hstep
  refine ⟨fun hnone => he (h.later.2 hnone), ?_⟩
  cases h with
  | write h => exact h.stops he hB.write hS
  | _ => exact hS

/-- What is written after an error is part of one chunk the writer had in hand. -/
theorem written_after_error (h0 : start J fs = some s₀) (hs : Lts.Reachable step s₀ s) (herr : s.fl.error ≠ none)
    (hs' : Lts.Reachable step s s') : s'.write.written = s.write.written ∨
      ∃ s₁ c data, Lts.Reachable step s s₁ ∧ Lts.Reachable step s₁ s' ∧ s₁.write.write_chunk = some c ∧
        data <+: c.bytes ∧ s'.write.written = s.write.written ++ data := by
  refine (hs'.last_change (·.write.written)).imp_right ?_
  rintro ⟨s₁, ⟨t, o⟩, s₂, h₁, hstep, h₂, hne, heq⟩
  have hstops := stops_after_error h0 hs herr h₁
  cases moves_of_step hstep with
  | write h =>
    obtain ⟨hl, c, data, hc, hdata, hw⟩ := h.writing hne
    refine ⟨s₁, c, data, h₁, Lts.Reach.trans (.next .refl trivial hstep) h₂, hc, hdata, ?_⟩
    rw [← heq, ← hstops.last hl]
    exact hw
  | _ => exact absurd rfl hne

end EncryptRun

/-! ### Decryption -/

namespace DecryptRun

variable {J : Job} {fs : FileSystem} {s s' : State J}

/-- A writer that is past its loop without an error was told a size that was
accepted, whatever happens in the other threads after that. -/
theorem past_accepted (hJ : Admissible J) (hs : Lts.Reachable step (start J fs) s) :
    WriteThread.Past s.write s.fl → J.headerSize ≠ none := by
  refine hs.invariant' (I := fun s => WriteThread.Past s.write s.fl → J.headerSize ≠ none)
    (J := fun s => Lts.Reachable step (start J fs) s) (fun _ hs => hs) False.elim ?_
  rintro s ⟨t, o⟩ s' hs ih - hstep hpast
  have hI := reachable_inv (start_inv hJ fs) hs
  have hI' := reachable_inv (start_inv hJ fs) (hs.trans (.next .refl trivial hstep))
  have hm := moves_of_step hstep
  have hbefore : WriteThread.Past s'.write s.fl := hpast.mono hm.later.2
  cases hm with
  | write h =>
    have hrun : s.fl.running = true := by
      by_contra hstop
      exact h.not_returned (hI.stopped (by simpa using hstop))
    rcases h.past hrun hpast with ⟨hp, -⟩ | ⟨rfl, herr, -, -⟩
    · exact ih hp
    · rw [hI'.size herr (hI'.past hpast).2]
      exact Option.some_ne_none _
  | _ => exact ih hbefore

/-- The plaintext, as long as an accepted header says. -/
theorem reachable_whole (hJ : Admissible J) (hs : Lts.Reachable step (start J fs) s) :
    WriteThread.Whole (writeParams J) fs (J.headerSize.map (J.plaintext.take ·)) s.fs := by
  have hfiles : WriteThread.Files (writeParams J) fs (start J fs).write (start J fs).fs := ⟨rfl, rfl⟩
  refine (hs.invariant' (I := fun s => WriteThread.Files (writeParams J) fs s.write s.fs ∧
      WriteThread.Whole (writeParams J) fs (J.headerSize.map (J.plaintext.take ·)) s.fs)
    (J := fun s => Lts.Reachable step (start J fs) s) (fun _ hs => hs)
    ⟨hfiles, WriteThread.whole_old⟩ ?_).2
  rintro s ⟨t, o⟩ s' hs ⟨hF, hW⟩ - hstep
  cases moves_of_step hstep with
  | write h =>
    refine ⟨h.files hF, h.whole hF (fun hp => ?_) hW⟩
    have hpast : WriteThread.Past s.write s.fl := by unfold WriteThread.Past; rw [hp]; trivial
    obtain ⟨n, hn⟩ := Option.ne_none_iff_exists'.mp (past_accepted hJ hs hpast)
    rw [((reachable_inv (start_inv hJ fs) hs).past hpast).1, output, hn]
    rfl
  | _ => exact ⟨hF, hW⟩

theorem stops_after_error (hs : Lts.Reachable step (start J fs) s) (herr : s.fl.error ≠ none)
    (hs' : Lts.Reachable step s s') : WriteThread.Stops J.chunk_limit s.write.written s'.write := by
  refine (hs'.invariant' (I := fun s' => s'.fl.error ≠ none ∧
      WriteThread.Stops J.chunk_limit s.write.written s'.write) (J := Bounded)
    (fun s' hs' => reachable_bounded (hs.trans hs')) ⟨herr, .refl _ _⟩ ?_).2
  rintro s₁ ⟨t, o⟩ s₂ hB ⟨he, hS⟩ - hstep
  have h := moves_of_step hstep
  refine ⟨fun hnone => he (h.later.2 hnone), ?_⟩
  cases h with
  | write h => exact h.stops he hB.write hS
  | _ => exact hS

/-- What is written after an error is part of one chunk the writer had in hand. -/
theorem written_after_error (hs : Lts.Reachable step (start J fs) s) (herr : s.fl.error ≠ none)
    (hs' : Lts.Reachable step s s') : s'.write.written = s.write.written ∨
      ∃ s₁ c data, Lts.Reachable step s s₁ ∧ Lts.Reachable step s₁ s' ∧ s₁.write.write_chunk = some c ∧
        data <+: c.bytes ∧ s'.write.written = s.write.written ++ data := by
  refine (hs'.last_change (·.write.written)).imp_right ?_
  rintro ⟨s₁, ⟨t, o⟩, s₂, h₁, hstep, h₂, hne, heq⟩
  have hstops := stops_after_error hs herr h₁
  cases moves_of_step hstep with
  | write h =>
    obtain ⟨hl, c, data, hc, hdata, hw⟩ := h.writing hne
    refine ⟨s₁, c, data, h₁, Lts.Reach.trans (.next .refl trivial hstep) h₂, hc, hdata, ?_⟩
    rw [← heq, ← hstops.last hl]
    exact hw
  | _ => exact absurd rfl hne

end DecryptRun

/-! ### The whole call -/

namespace Controller

variable (J : Job)

/-- The files at some moment of a call, whichever calls in the threads fail:
before the threads start, while they run, or when `runThreefizer` has returned. -/
inductive Moment (fs : FileSystem) : FileSystem → Prop
  | before : Moment fs fs
  | encrypting {s₀ s : EncryptRun.State J} : ¬ TooSmall J → J.args.encrypt = true → EncryptRun.start J fs = some s₀ →
      Lts.Reachable EncryptRun.step s₀ s → Moment fs s.fs
  | decrypting {s : DecryptRun.State J} : ¬ TooSmall J → J.args.encrypt = false →
      Lts.Reachable DecryptRun.step (DecryptRun.start J fs) s → Moment fs s.fs
  | returned {keys : Bool} {error : Option Error} {fs' : FileSystem} :
      Ends J (fun _ _ => True) (fun _ _ => True) keys fs error fs' → Moment fs fs'

/-- All of the output; of a decryption whether its tag is right or not. -/
def wholeOutput : Option (List Byte) :=
  if J.args.encrypt then encryptFile J J.max_chunk else J.headerSize.map (J.plaintext.take ·)

variable {J} {fs fs' : FileSystem}

theorem cleanUp_whole {P : WriteParams} (hP : P.temp_file_name = J.temp_file_name) {total : Option (List Byte)}
    {error : Option Error} (h : WriteThread.Whole P fs total fs') :
    WriteThread.Whole P fs total (cleanUp J error fs') := by
  intro q hq
  rw [cleanUp_other fs' (hP ▸ hq)]
  exact h q hq

theorem admissible_of_given (hG : Given J fs) (hdec : J.args.encrypt = false) (hbig : ¬ TooSmall J) :
    DecryptRun.Admissible J := by
  refine ⟨?_, hG.fits⟩
  by_contra hf
  refine hbig (Or.inr ⟨hdec, ?_⟩)
  rw [J.file_size_eq, J.state_size_eq]
  simpa using hf

/-- **Killed at any moment, the program leaves whole files**: every file but
the temp file is as it was, or it is the destination and holds all of the
output, over what a temp file from before had. -/
theorem interrupted_leaves_whole_files (J : Job) (fs fs' : FileSystem) (hG : Given J fs) (h : Moment J fs fs')
    (q : Path) (hq : q ≠ J.temp_file_name) :
    fs' q = fs q ∨ q = J.destination ∧ ∃ out, wholeOutput J = some out ∧
      fs' q = some (Overlay.overlay ((fs J.temp_file_name).getD []) out) := by
  have hE : ∀ {s₀ s : EncryptRun.State J}, J.args.encrypt = true → EncryptRun.start J fs = some s₀ →
      Lts.Reachable EncryptRun.step s₀ s → WriteThread.Whole (EncryptRun.writeParams J) fs (wholeOutput J) s.fs := by
    intro s₀ s henc h0 hs
    rw [wholeOutput, if_pos henc]
    exact EncryptRun.reachable_whole hG.iv hG.room h0 hs
  have hD : ∀ {s : DecryptRun.State J}, ¬ TooSmall J → J.args.encrypt = false →
      Lts.Reachable DecryptRun.step (DecryptRun.start J fs) s →
      WriteThread.Whole (DecryptRun.writeParams J) fs (wholeOutput J) s.fs := by
    intro s hbig hdec hs
    rw [wholeOutput, hdec, if_neg Bool.false_ne_true]
    exact DecryptRun.reachable_whole (admissible_of_given hG hdec hbig) hs
  cases h with
  | before => exact Or.inl rfl
  | encrypting _ henc h0 hs => exact hE henc h0 hs q hq
  | decrypting hbig hdec hs => exact hD hbig hdec hs q hq
  | returned h =>
    cases h with
    | tooSmall | noKeys | notQueued => exact Or.inl rfl
    | encrypted _ _ henc h0 hs _ => exact cleanUp_whole rfl (hE henc h0 hs) q hq
    | decrypted hbig _ hdec hs _ => exact cleanUp_whole rfl (hD hbig hdec hs) q hq

/-- An encryption that is killed when it has renamed the file. -/
theorem interrupted_leaves_whole_files_sample :
    ∃ fs', Moment (Skein3fish.sampleJob true Skein3fish.sampleText) sampleFiles fs' ∧
      fs' [1] ≠ sampleFiles [1] ∧ fs' [1] = some Skein3fish.sampleFile := by
  have hrun : ((EncryptRun.start (Skein3fish.sampleJob true Skein3fish.sampleText) sampleFiles).bind fun s₀ =>
      Lts.run EncryptRun.step (fun _ _ => True) s₀ (sampleSteps .success)).any
        (fun s => decide (s.fs [1] ≠ sampleFiles [1])) = true := by decide +kernel
  obtain ⟨s, hs, hp⟩ := (Option.any_eq_true _ _).mp hrun
  obtain ⟨s₀, h0, hs⟩ := Option.bind_eq_some_iff.mp hs
  have hmoment := Moment.encrypting sample_starts rfl h0 (Lts.Reach.of_run hs)
  have hchanged := of_decide_eq_true hp
  obtain ⟨-, out, hout, hfile⟩ :=
    (interrupted_leaves_whole_files _ _ _ sample_given hmoment [1] (by decide)).resolve_left hchanged
  rw [← Option.some.inj (hout.symm.trans DecryptRun.sample_encrypted)]
  exact ⟨s.fs, hmoment, hchanged, hfile.trans (congrArg some (Overlay.overlay_eq_self.mpr (Nat.zero_le _)))⟩

/-- **After an error at most one more chunk is written**, in either pipeline,
whatever the threads still do: a part of one chunk the writer had in hand. -/
theorem error_stops_writer (J : Job) (fs : FileSystem) :
    (∀ s₀ s s', EncryptRun.start J fs = some s₀ → Lts.Reachable EncryptRun.step s₀ s → s.fl.error ≠ none →
      Lts.Reachable EncryptRun.step s s' →
        s.write.written <+: s'.write.written ∧
          s'.write.written.length ≤ s.write.written.length + J.chunk_limit ∧
          (s'.write.written = s.write.written ∨ ∃ s₁ c data, Lts.Reachable EncryptRun.step s s₁ ∧
            Lts.Reachable EncryptRun.step s₁ s' ∧ s₁.write.write_chunk = some c ∧ data <+: c.bytes ∧
            s'.write.written = s.write.written ++ data)) ∧
    (∀ s s', Lts.Reachable DecryptRun.step (DecryptRun.start J fs) s → s.fl.error ≠ none →
      Lts.Reachable DecryptRun.step s s' →
        s.write.written <+: s'.write.written ∧
          s'.write.written.length ≤ s.write.written.length + J.chunk_limit ∧
          (s'.write.written = s.write.written ∨ ∃ s₁ c data, Lts.Reachable DecryptRun.step s s₁ ∧
            Lts.Reachable DecryptRun.step s₁ s' ∧ s₁.write.write_chunk = some c ∧ data <+: c.bytes ∧
            s'.write.written = s.write.written ++ data)) := by
  constructor
  · intro s₀ s s' h0 hs herr hs'
    have hstops := EncryptRun.stops_after_error h0 hs herr hs'
    exact ⟨hstops.start, hstops.bound, EncryptRun.written_after_error h0 hs herr hs'⟩
  · intro s s' hs herr hs'
    have hstops := DecryptRun.stops_after_error hs herr hs'
    exact ⟨hstops.start, hstops.bound, DecryptRun.written_after_error hs herr hs'⟩

/-- The reader fails to open the file while the writer has the header in hand;
it is the only chunk that is written. -/
theorem error_stops_writer_sample :
    (∃ s₀ s s' : EncryptRun.State (Skein3fish.sampleJob true Skein3fish.sampleText),
      EncryptRun.start _ sampleFiles = some s₀ ∧ Lts.Reachable EncryptRun.step s₀ s ∧
      s.fl.error = some .FILE_IO_FAIL ∧ Lts.Reachable EncryptRun.step s s' ∧
      s.write.written = [] ∧ s'.write.written.length = 64 ∧
      s'.write.written.length ≤ s.write.written.length + (Skein3fish.sampleJob true Skein3fish.sampleText).chunk_limit) ∧
    ∃ s s' : DecryptRun.State (Skein3fish.sampleJob false Skein3fish.sampleFile),
      Lts.Reachable DecryptRun.step (DecryptRun.start _ sampleFiles) s ∧ s.fl.error = some .FILE_IO_FAIL ∧
      Lts.Reachable DecryptRun.step s s' ∧ s.write.written <+: s'.write.written := by
  constructor
  · have hrun : ((EncryptRun.start (Skein3fish.sampleJob true Skein3fish.sampleText) sampleFiles).bind fun s₀ =>
        Lts.run EncryptRun.step (fun _ _ => True) s₀ (List.replicate 9 (.crypt, .success) ++
          List.replicate 9 (.mac, .success) ++ List.replicate 5 (.write, .success) ++
          [(.read, .failure 0), (.read, .success)])).any
        (fun s => decide (s.fl.error = some .FILE_IO_FAIL ∧ s.write.written = []) &&
          (Lts.run EncryptRun.step (fun _ _ => True) s [(.write, .success)]).any
            fun s' => decide (s'.write.written.length = 64)) = true := by decide +kernel
    obtain ⟨s, hs, hp⟩ := (Option.any_eq_true _ _).mp hrun
    obtain ⟨s₀, h0, hs⟩ := Option.bind_eq_some_iff.mp hs
    obtain ⟨hp, hp'⟩ := (Bool.and_eq_true _ _).mp hp
    obtain ⟨s', hs', hp'⟩ := Lts.Reach.of_run_any hp'
    obtain ⟨herr, hw⟩ := of_decide_eq_true hp
    exact ⟨s₀, s, s', h0, Lts.Reach.of_run hs, herr, hs', hw, of_decide_eq_true hp',
      ((error_stops_writer _ _).1 s₀ s s' h0 (Lts.Reach.of_run hs) (by rw [herr]; nofun) hs').2.1⟩
  · have hrun : (Lts.run DecryptRun.step (fun _ _ => True)
        (DecryptRun.start (Skein3fish.sampleJob false Skein3fish.sampleFile) sampleFiles)
        [(.write, .failure 0), (.write, .success)]).any
        (fun s => decide (s.fl.error = some .FILE_IO_FAIL)) = true := by decide +kernel
    obtain ⟨s, hs, hp⟩ := Lts.Reach.of_run_any hrun
    have herr := of_decide_eq_true hp
    exact ⟨s, s, hs, herr, .refl, ((error_stops_writer _ _).2 s s hs (by rw [herr]; nofun) .refl).1⟩

end Controller

end Threefizer
