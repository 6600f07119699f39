/-
# The controller (`runThreefizer` of `controller.c`)

`runThreefizer` checks the file size, makes the keys, starts the threads, waits
until they have returned, deletes the temp file if there was an error, and
returns the error word. `Ends` is how it can end; the steps of the threads can
be restricted to those that meet a condition.

Zero means that the destination holds the complete output and anything else
that the target is untouched and no temp file is left (`status_sound`), if
* the rename does not fail: its result is not looked at (`rename_ignored`);
* the temp file held nothing that would stay behind the output, and nothing at
  all if the threads are not even started;
* a writer that replaces the target leaves at the byte count only when no
  other thread can fail any more.
-/
import Threefizer.DecryptEnd
import Threefizer.EncryptEnd

namespace Threefizer

open Words Queue

/-! ### The files of a run -/

namespace WriteThread

/-- The files while the writer runs: the temp file, the renamed file, and all others. -/
structure Filed (P : WriteParams) (old : FileSystem) (l : Local) (fl : Flags) (fs : FileSystem) : Prop where
  files : Files P old l fs
  ended : Ended P old l fl fs
  frame : ∀ q, q ≠ P.temp_file_name → q ≠ P.destination → fs q = old q

/-- A writer that has returned with an error has not renamed the file. -/
def Original (P : WriteParams) (old : FileSystem) (l : Local) (fl : Flags) (fs : FileSystem) : Prop :=
  l.pc = .returned → fl.error ≠ none → fs = old ∨ fs = placed P old l

variable {P : WriteParams} {old fs fs' : FileSystem} {l l' : Local} {fl fl' : Flags} {inq inq' : Queue}
  {o : Outcome}

theorem filed_init : Filed P old .init .init old := ⟨⟨rfl, rfl⟩, trivial, fun _ _ _ => rfl⟩

theorem Filed.step (h : WriteThread.step P l fl inq fs o = some (l', fl', inq', fs'))
    (ho : l.pc = .rename → o = .success) (hF : Filed P old l fl fs) : Filed P old l' fl' fs' where
  files := (moves_of_step h).files hF.files
  ended := step_ended h ho hF.files hF.ended
  frame := fun q ht hd => ((moves_of_step h).frame ht hd).trans (hF.frame q ht hd)

theorem Filed.mono (hF : Filed P old l fl fs) (herr : fl'.error = none → fl.error = none) :
    Filed P old l fl' fs :=
  { hF with ended := hF.ended.mono herr }

/-- With no error the destination holds what was written over the temp file. -/
theorem Filed.destination (hF : Filed P old l fl fs) (hp : l.pc = .returned) (herr : fl.error = none)
    (hleft : ((old P.temp_file_name).getD []).length ≤ l.written.length) : fs P.destination = some l.written := by
  have hend := hF.ended
  unfold Ended at hend
  rw [hp] at hend
  rw [hend herr, renamed, FileSystem.rename_dst, placed, FileSystem.set_same,
    Overlay.overlay_eq_self.mpr hleft]

/-- A writer that has not renamed the file has left the others as they were. -/
theorem Original.target (hO : Original P old l fl fs) (hp : l.pc = .returned) (herr : fl.error ≠ none)
    {q : Path} (ht : q ≠ P.temp_file_name) : fs q = old q := by
  rcases hO hp herr with h | h <;> rw [h]
  exact FileSystem.set_other _ _ ht

end WriteThread

namespace EncryptRun

variable {J : Job}

/-- A rename does not fail. -/
def Renames (s : State J) (a : Thread × Outcome) : Prop :=
  a.1 = .write → s.write.pc = .rename → a.2 = .success

instance (s : State J) (a : Thread × Outcome) : Decidable (Renames s a) := by
  unfold Renames; infer_instance

theorem filed_step {fs : FileSystem} {s s' : State J} {a : Thread × Outcome} (h : step s a = some s')
    (hok : Renames s a) (hF : WriteThread.Filed (writeParams J) fs s.write s.fl s.fs) :
    WriteThread.Filed (writeParams J) fs s'.write s'.fl s'.fs := by
  have hlater := (moves_of_step h).later
  obtain ⟨t, o⟩ := a
  cases t <;> obtain ⟨⟨_, _⟩, hx, rfl⟩ := Option.map_eq_some_iff.mp h
  case write => exact hF.step hx (hok rfl)
  all_goals exact hF.mono hlater.2

/-- The writer renames only when the other threads have returned. -/
theorem original_step {fs : FileSystem} {s s' : State J} {t : Thread} (h : Moves s t s') (hO : Order s)
    (hF : WriteThread.Filed (writeParams J) fs s.write s.fl s.fs)
    (hR : WriteThread.Original (writeParams J) fs s.write s.fl s.fs) :
    WriteThread.Original (writeParams J) fs s'.write s'.fl s'.fs := by
  intro hp herr'
  have hcalm : s.write.pc = .returned → s.fl.error = none →
      s.read.pc = .returned ∧ s.crypt.pc = .returned ∧ s.mac.pc = .returned ∧ s.fl.error = none :=
    fun hp herr => hO.calm (by unfold WriteThread.Past; rw [hp]; exact herr)
  cases h with
  | read h => exact hR hp fun herr => h.not_returned (hcalm hp herr).1
  | crypt h => exact hR hp fun herr => h.not_returned (hcalm hp herr).2.1
  | mac h => exact hR hp fun herr => h.not_returned (hcalm hp herr).2.2.1
  | write h =>
    refine h.original hF.files (fun hc => ?_) hp herr'
    exact (hO.calm (by unfold WriteThread.Past; rw [hc]; trivial)).2.2.2

end EncryptRun

namespace DecryptRun

variable {J : Job}

/-- A rename does not fail, and a writer that replaces the target leaves at the
byte count only when no other thread can fail any more. -/
def Replaces (s : State J) (a : Thread × Outcome) : Prop :=
  (a.1 = .write → s.write.pc = .rename → a.2 = .success) ∧
    (J.destination = J.args.target_file → LastExit s a)

instance (s : State J) (a : Thread × Outcome) : Decidable (Replaces s a) := by
  unfold Replaces; infer_instance

theorem filed_step {fs : FileSystem} {s s' : State J} {a : Thread × Outcome} (h : step s a = some s')
    (hok : a.1 = .write → s.write.pc = .rename → a.2 = .success)
    (hF : WriteThread.Filed (writeParams J) fs s.write s.fl s.fs) :
    WriteThread.Filed (writeParams J) fs s'.write s'.fl s'.fs := by
  have hlater := (moves_of_step h).later
  obtain ⟨t, o⟩ := a
  cases t <;> obtain ⟨⟨_, _⟩, hx, rfl⟩ := Option.map_eq_some_iff.mp h
  case write => exact hF.step hx (hok rfl)
  all_goals exact hF.mono hlater.2

theorem original_step {fs : FileSystem} {s s' : State J} {t : Thread} (h : Moves s t s') (hI : Inv s)
    (hO : Order s) (hC : WriteThread.Past s.write s.fl → Calm s)
    (hF : WriteThread.Filed (writeParams J) fs s.write s.fl s.fs)
    (hR : WriteThread.Original (writeParams J) fs s.write s.fl s.fs) :
    WriteThread.Original (writeParams J) fs s'.write s'.fl s'.fs := by
  intro hp herr'
  have hcalm : s.write.pc = .returned → s.fl.error = none → s'.fl.error = none := fun hp herr => by
    have hpast : WriteThread.Past s.write s.fl := by unfold WriteThread.Past; rw [hp]; exact herr
    exact ((hC hpast).step h hI hO hpast.not_failing).error
  cases h with
  | read _ => exact hR hp fun herr => herr' (hcalm hp herr)
  | mac _ => exact hR hp fun herr => herr' (hcalm hp herr)
  | crypt _ => exact hR hp fun herr => herr' (hcalm hp herr)
  | write h =>
    refine h.original hF.files (fun hc => ?_) hp herr'
    exact (hC (by unfold WriteThread.Past; rw [hc]; trivial)).error

/-- In a run whose writer replaces the target, a returned writer with an error
has not renamed the file. -/
theorem reachable_original (hJ : Admissible J) (fs : FileSystem) {s : State J}
    (hdest : J.destination = J.args.target_file) (hs : Lts.Reach step Replaces (start J fs) s) :
    WriteThread.Original (writeParams J) fs s.write s.fl s.fs := by
  refine (hs.invariant' (I := fun s => Gated s ∧ (WriteThread.Past s.write s.fl → Calm s) ∧
      WriteThread.Filed (writeParams J) fs s.write s.fl s.fs ∧
      WriteThread.Original (writeParams J) fs s.write s.fl s.fs) (J := fun s => Inv s ∧ Order s)
    (fun s hs => ⟨reachable_inv (start_inv hJ fs) hs.reachable, reachable_order hJ fs hs.reachable⟩)
    ⟨start_gated fs, fun h => h.elim, WriteThread.filed_init, nofun⟩ ?_).2.2.2
  rintro s a s' ⟨hI, hO⟩ ⟨hG, hC, hF, hR⟩ hok hstep
  have h := moves_of_step hstep
  exact ⟨hG.step h hI (hok.2 hdest).tagFirst, calm_step hstep (hok.2 hdest) hI hO hG hC, filed_step hstep hok.1 hF,
    original_step h hI hO hC hF hR⟩

end DecryptRun

/-! ### The controller -/

namespace Controller

variable (J : Job)

/-- The size check at the start. -/
def TooSmall : Prop :=
  (J.args.encrypt = true ∧ J.args.file_size = 0) ∨
    (J.args.encrypt = false ∧ isGreaterThanThreeBlocks J.args.file_size J.args.state_size = false)

/-- The end of `runThreefizer`: after an error the temp file is deleted. -/
def cleanUp (error : Option Error) (fs : FileSystem) : FileSystem :=
  if error = none then fs else fs.unlink J.temp_file_name

/-- How `runThreefizer` can end: the error word, none for `THREEFIZER_SUCCESS`,
and the files. `keys` is whether `handleKeys` succeeds. -/
inductive Ends (encryptOk : EncryptRun.State J → EncryptRun.Thread × Outcome → Prop)
    (decryptOk : DecryptRun.State J → DecryptRun.Thread × Outcome → Prop) (keys : Bool) (fs : FileSystem) :
    Option Error → FileSystem → Prop
  | tooSmall : TooSmall J → Ends encryptOk decryptOk keys fs (some .FILE_TOO_SMALL) fs
  | noKeys : ¬ TooSmall J → keys = false → Ends encryptOk decryptOk keys fs (some .KEY_GENERATION_FAIL) fs
  | notQueued {q : Queue} : ¬ TooSmall J → keys = true → J.args.encrypt = true →
      queueHeader J.args (createQueue J.que_size) = some (false, q) →
      Ends encryptOk decryptOk keys fs (some .QUEUE_OPERATION_FAIL) fs
  | encrypted {s₀ s : EncryptRun.State J} : ¬ TooSmall J → keys = true → J.args.encrypt = true →
      EncryptRun.start J fs = some s₀ → Lts.Reach EncryptRun.step encryptOk s₀ s → EncryptRun.Returned s →
      Ends encryptOk decryptOk keys fs s.fl.error (cleanUp J s.fl.error s.fs)
  | decrypted {s : DecryptRun.State J} : ¬ TooSmall J → keys = true → J.args.encrypt = false →
      Lts.Reach DecryptRun.step decryptOk (DecryptRun.start J fs) s → DecryptRun.Returned s →
      Ends encryptOk decryptOk keys fs s.fl.error (cleanUp J s.fl.error s.fs)

/-- The complete output; none when there is none. -/
def output : Option (List Byte) :=
  if J.args.encrypt then encryptFile J J.max_chunk
  else (decryptFile J).bind fun d => if d.error = none then some d.written else none

/-- What the controller is given: the target file, the sizes the program makes
sure of, a temp file that is not the target. -/
structure Given (fs : FileSystem) : Prop where
  target : fs J.args.target_file = some J.file
  temp : J.args.target_file ≠ J.temp_file_name
  room : 0 < J.que_size
  iv : ∀ iv, J.args.iv = some iv → iv.length = J.state_size.words
  fits : J.file.length + 2 * J.state_size.bytes < 2 ^ 64

/-- The temp file holds nothing that stays: nothing longer than the output, and
nothing at all if the threads are not started. -/
structure Clear (keys : Bool) (fs : FileSystem) : Prop where
  started : ∀ out, output J = some out → ((fs J.temp_file_name).getD []).length ≤ out.length
  early : TooSmall J ∨ keys = false ∨ (J.args.encrypt = true ∧ (J.args.iv = none ∨ J.file.length < 2)) →
    fs J.temp_file_name = none

variable {J} {fs : FileSystem}

theorem cleanUp_temp {error : Option Error} (h : error ≠ none) (fs : FileSystem) :
    cleanUp J error fs J.temp_file_name = none := by
  rw [cleanUp, if_neg h, FileSystem.unlink, FileSystem.set_same]

theorem cleanUp_other {error : Option Error} (fs : FileSystem) {q : Path} (hq : q ≠ J.temp_file_name) :
    cleanUp J error fs q = fs q := by
  unfold cleanUp
  split
  · rfl
  · exact FileSystem.set_other _ _ hq

/-- The header is not queued when there is no vector or hardly a file. -/
theorem queueHeader_false {q q' : Queue} (h : queueHeader J.args q = some (false, q')) :
    J.args.iv = none ∨ J.file.length < 2 := by
  by_contra hne
  obtain ⟨hiv, hsize⟩ := not_or.mp hne
  obtain ⟨iv, hiv⟩ := Option.ne_none_iff_exists'.mp hiv
  have hdata : (headerChunk J.args).data ≠ [] := by
    have hc : J.args.file_size > 1 ∧ (0 < (if J.args.legacy_hash then 1 else 2) ∧
        (if J.args.legacy_hash then 1 else 2) ≤ 2) := by
      rw [J.file_size_eq]
      refine ⟨by omega, ?_⟩
      split <;> decide
    simp [headerChunk, hiv, genHeader, hc]
  rw [queueHeader, if_neg (by rw [hiv]; exact Option.some_ne_none _), if_neg hdata] at h
  obtain ⟨_, -, hx⟩ := Option.map_eq_some_iff.mp h
  cases hx

/-- What status 0 and any other status promise. -/
def Sound (J : Job) (fs : FileSystem) (error : Option Error) (fs' : FileSystem) : Prop :=
  (error = none → ∃ out, output J = some out ∧ fs' J.destination = some out) ∧
    (error ≠ none → fs' J.args.target_file = fs J.args.target_file ∧ fs' J.temp_file_name = none)

theorem encrypted_sound {keys : Bool} (hG : Given J fs) (hC : Clear J keys fs) (henc : J.args.encrypt = true)
    {s₀ s : EncryptRun.State J} (h0 : EncryptRun.start J fs = some s₀)
    (hs : Lts.Reach EncryptRun.step EncryptRun.Renames s₀ s) (hret : EncryptRun.Returned s) :
    Sound J fs s.fl.error (cleanUp J s.fl.error s.fs) := by
  obtain ⟨⟨iv, hiv⟩, hsize⟩ := EncryptRun.start_some h0
  have hlen := hG.iv iv hiv
  obtain ⟨s₁, hs₁, hI0⟩ := EncryptRun.start_inv hiv hlen hsize hG.room fs
  cases h0.symm.trans hs₁
  have hO0 := EncryptRun.start_order hG.iv hG.room h0
  have hfs : s₀.fl = .init ∧ s₀.write = .init ∧ s₀.fs = fs := by
    unfold EncryptRun.start at h0
    split at h0 <;> cases h0
    exact ⟨rfl, rfl, rfl⟩
  have hF0 : WriteThread.Filed (EncryptRun.writeParams J) fs s₀.write s₀.fl s₀.fs := by
    rw [hfs.1, hfs.2.1, hfs.2.2]
    exact WriteThread.filed_init
  have hR0 : WriteThread.Original (EncryptRun.writeParams J) fs s₀.write s₀.fl s₀.fs := by
    rw [hfs.2.1]
    exact nofun
  obtain ⟨hF, hR⟩ := hs.invariant' (I := fun s => WriteThread.Filed (EncryptRun.writeParams J) fs s.write s.fl s.fs ∧
      WriteThread.Original (EncryptRun.writeParams J) fs s.write s.fl s.fs) (J := EncryptRun.Order)
    (fun s hs => EncryptRun.reachable_order hI0 hO0 hs.reachable) ⟨hF0, hR0⟩
    fun s a s' hO ⟨hF, hR⟩ hok hstep =>
      ⟨EncryptRun.filed_step hstep hok hF, EncryptRun.original_step (EncryptRun.moves_of_step hstep) hO hF hR⟩
  have hw : s.write.pc = .returned := hret.2.2.2
  refine ⟨fun herr => ?_, fun herr => ?_⟩
  · have hI := EncryptRun.reachable_inv hI0 hs.reachable
    have hout : output J = some (J.image iv) := by
      rw [output, if_pos henc]
      exact encryptFile_eq hiv hlen hsize J.max_chunk_pos J.max_chunk_dvd (J.reads _)
    have hwritten : s.write.written = J.image iv := hI.past (by unfold WriteThread.Past; rw [hw]; exact herr)
    refine ⟨_, hout, ?_⟩
    rw [cleanUp, if_pos herr, ← hwritten]
    exact hF.destination hw herr (by rw [hwritten]; exact hC.started _ hout)
  · exact ⟨(cleanUp_other _ hG.temp).trans (hR.target hw herr hG.temp), cleanUp_temp herr _⟩

theorem decrypted_sound {keys : Bool} (hG : Given J fs) (hC : Clear J keys fs) (hdec : J.args.encrypt = false)
    (hbig : ¬ TooSmall J) {s : DecryptRun.State J}
    (hs : Lts.Reach DecryptRun.step DecryptRun.Replaces (DecryptRun.start J fs) s) (hret : DecryptRun.Returned s) :
    Sound J fs s.fl.error (cleanUp J s.fl.error s.fs) := by
  have hJ : DecryptRun.Admissible J := by
    refine ⟨?_, hG.fits⟩
    by_contra hf
    refine hbig (Or.inr ⟨hdec, ?_⟩)
    rw [J.file_size_eq, J.state_size_eq]
    simpa using hf
  have hF : WriteThread.Filed (DecryptRun.writeParams J) fs s.write s.fl s.fs :=
    hs.invariant (I := fun s => WriteThread.Filed (DecryptRun.writeParams J) fs s.write s.fl s.fs)
      WriteThread.filed_init fun _ _ _ hF hok hstep => DecryptRun.filed_step hstep hok.1 hF
  have hw : s.write.pc = .returned := hret.2.2.2
  refine ⟨fun herr => ?_, fun herr => ?_⟩
  · have hI := DecryptRun.reachable_inv (DecryptRun.start_inv hJ fs) hs.reachable
    obtain ⟨n, hn, htag, hwritten⟩ := hI.returned hJ hret herr
    have hout : output J = some (J.plaintext.take n) := by
      rw [output, hdec, decryptFile_eq hJ.big hJ.fits hn htag]
      rfl
    refine ⟨_, hout, ?_⟩
    rw [cleanUp, if_pos herr, ← hwritten]
    exact hF.destination hw herr (by rw [hwritten]; exact hC.started _ hout)
  · refine ⟨(cleanUp_other _ hG.temp).trans ?_, cleanUp_temp herr _⟩
    by_cases hdest : J.destination = J.args.target_file
    · exact (DecryptRun.reachable_original hJ fs hdest hs).target hw herr hG.temp
    · exact hF.frame _ hG.temp (Ne.symm hdest)

/-- Status 0 means that the output is in place, any other that the target is as
it was and no temp file is left: if no rename fails, nothing is left in the temp
file from before, and a writer that replaces the target leaves at the byte
count only when no other thread can fail any more. -/
theorem status_sound (J : Job) (fs : FileSystem) (keys : Bool) (hG : Given J fs) (hC : Clear J keys fs)
    (error : Option Error) (fs' : FileSystem)
    (h : Ends J EncryptRun.Renames DecryptRun.Replaces keys fs error fs') : Sound J fs error fs' := by
  have hearly : TooSmall J ∨ keys = false ∨ (J.args.encrypt = true ∧ (J.args.iv = none ∨ J.file.length < 2)) →
      ∀ code, Sound J fs (some code) fs := fun h code => ⟨nofun, fun _ => ⟨rfl, hC.early h⟩⟩
  cases h with
  | tooSmall h => exact hearly (Or.inl h) _
  | noKeys _ h => exact hearly (Or.inr (Or.inl h)) _
  | notQueued _ _ he hq => exact hearly (Or.inr (Or.inr ⟨he, queueHeader_false hq⟩)) _
  | encrypted _ _ he h0 hs hret => exact encrypted_sound hG hC he h0 hs hret
  | decrypted hbig _ he hs hret => exact decrypted_sound hG hC he hbig hs hret

/-- Nothing but the file that is to be encrypted. -/
def sampleFiles : FileSystem := fun p => if p = [1] then some Skein3fish.sampleText else none

theorem sample_given : Given (Skein3fish.sampleJob true Skein3fish.sampleText) sampleFiles where
  target := rfl
  temp := by decide
  room := by decide
  iv := fun iv h => by cases h; rfl
  fits := by decide

theorem sample_clear : Clear (Skein3fish.sampleJob true Skein3fish.sampleText) true sampleFiles where
  started := fun _ _ => Nat.zero_le _
  early := fun _ => rfl

theorem sample_starts : ¬ TooSmall (Skein3fish.sampleJob true Skein3fish.sampleText) := by
  rintro (⟨-, h⟩ | ⟨h, -⟩) <;> cases h

/-- The steps of the threads up to the rename, which ends with `o`, and the last one. -/
def sampleSteps (o : Outcome) : List (EncryptRun.Thread × Outcome) :=
  List.replicate 9 (.read, .success) ++ List.replicate 16 (.crypt, .success) ++
    List.replicate 20 (.mac, .success) ++ List.replicate 20 (.write, .success) ++
    [(.write, o), (.write, .success)]

theorem status_sound_sample :
    ∃ fs', Ends (Skein3fish.sampleJob true Skein3fish.sampleText) EncryptRun.Renames DecryptRun.Replaces true
        sampleFiles none fs' ∧ Sound (Skein3fish.sampleJob true Skein3fish.sampleText) sampleFiles none fs' := by
  have hrun : ((EncryptRun.start (Skein3fish.sampleJob true Skein3fish.sampleText) sampleFiles).bind fun s₀ =>
      Lts.run EncryptRun.step EncryptRun.Renames s₀ (sampleSteps .success)).any
        (fun s => decide (EncryptRun.Returned s ∧ s.fl.error = none)) = true := by decide +kernel
  obtain ⟨s, hs, hp⟩ := (Option.any_eq_true _ _).mp hrun
  obtain ⟨s₀, h0, hs⟩ := Option.bind_eq_some_iff.mp hs
  obtain ⟨hret, herr⟩ := of_decide_eq_true hp
  have hends : Ends _ EncryptRun.Renames DecryptRun.Replaces true sampleFiles s.fl.error _ :=
    .encrypted sample_starts rfl rfl h0 (Lts.Reach.of_run hs) hret
  rw [herr] at hends
  exact ⟨_, hends, status_sound _ _ true sample_given sample_clear _ _ hends⟩

/-- `runThreefizer` can return 0 although the rename has failed. -/
theorem rename_ignored : ¬ ∀ (J : Job) (fs : FileSystem) (keys : Bool), Given J fs → Clear J keys fs →
    ∀ error fs', Ends J (fun _ _ => True) (fun _ _ => True) keys fs error fs' → Sound J fs error fs' := by
  intro h
  have hrun : ((EncryptRun.start (Skein3fish.sampleJob true Skein3fish.sampleText) sampleFiles).bind fun s₀ =>
      Lts.run EncryptRun.step (fun _ _ => True) s₀ (sampleSteps (.failure 0))).any
        (fun s => decide (EncryptRun.Returned s ∧ s.fl.error = none ∧ s.fs [1] = some Skein3fish.sampleText)) =
          true := by decide +kernel
  obtain ⟨s, hs, hp⟩ := (Option.any_eq_true _ _).mp hrun
  obtain ⟨s₀, h0, hs⟩ := Option.bind_eq_some_iff.mp hs
  obtain ⟨hret, herr, hfile⟩ := of_decide_eq_true hp
  have hends : Ends _ (fun _ _ => True) (fun _ _ => True) true sampleFiles s.fl.error _ :=
    .encrypted sample_starts rfl rfl h0 (Lts.Reach.of_run hs) hret
  obtain ⟨out, hout, hdest⟩ := (h _ _ true sample_given sample_clear _ _ hends).1 herr
  -- the target still holds the text, which is not its encryption
  rw [cleanUp, if_pos herr] at hdest
  cases hdest.symm.trans hfile
  exact absurd (hout.symm.trans DecryptRun.sample_encrypted) (by decide)

/-! ### The three size checks of encryption -/

/-- `runThreefizer` and `queueFileForEncrypt` both let the file through. -/
def Admitted (J : Job) : Prop :=
  ¬ TooSmall J ∧ (encryptReader J.file J.state_size J.max_chunk).tooSmall = false

/-- The header of the file goes into an empty queue: `genHeader` makes it and
`queueHeader` succeeds. -/
def HeaderQueued (J : Job) : Prop :=
  genHeader J.args.iv J.args.file_size J.args.state_size (if J.args.legacy_hash then 1 else 2) ≠ none ∧
    ∃ q, queueHeader J.args (createQueue QUE_SIZE) = some (true, q)

theorem admitted_iff {J : Job} (henc : J.args.encrypt = true) : Admitted J ↔ J.args.file_size ≠ 0 := by
  rw [Admitted, TooSmall, J.file_size_eq]
  simp [henc, encryptReader]

theorem headerQueued_iff {J : Job} (hiv : J.args.iv ≠ none) : HeaderQueued J ↔ 1 < J.args.file_size := by
  obtain ⟨iv, hiv⟩ := Option.ne_none_iff_exists'.mp hiv
  have hroom : (createQueue QUE_SIZE).HasRoom := Queue.hasRoom_iff.mpr (by decide)
  obtain ⟨hsome, hfail⟩ := queueHeader_of_room hiv hroom
  constructor
  · rintro ⟨-, q, hq⟩
    by_contra hn
    rw [hfail (Nat.not_lt.mp hn)] at hq
    cases hq
  · intro hn
    refine ⟨?_, hsome hn⟩
    rw [hiv, genHeader_some, if_pos hn]
    · exact Option.some_ne_none _
    · cases J.args.legacy_hash <;> simp

/-- **The size checks agree on every file but those of one byte**: what the
first two let through the third does as well, except for that size. -/
theorem size_checks_agree_iff (J : Job) (henc : J.args.encrypt = true) (hiv : J.args.iv ≠ none) :
    (Admitted J → HeaderQueued J) ↔ J.args.file_size ≠ 1 := by
  rw [admitted_iff henc, headerQueued_iff hiv]
  omega

theorem size_checks_agree_sample : HeaderQueued (Skein3fish.sampleJob true Skein3fish.sampleText) :=
  (size_checks_agree_iff (Skein3fish.sampleJob true Skein3fish.sampleText) rfl (Option.some_ne_none _)).mpr
    (by decide) ((admitted_iff rfl).mpr (by decide))

/-- A file of one byte is let through and encryption ends with
`QUEUE_OPERATION_FAIL`. -/
theorem one_byte_not_queued :
    Admitted (Skein3fish.sampleJob true [7]) ∧ ¬ HeaderQueued (Skein3fish.sampleJob true [7]) ∧
      Ends (Skein3fish.sampleJob true [7]) EncryptRun.Renames DecryptRun.Replaces true
        (fun p => if p = [1] then some [7] else none) (some .QUEUE_OPERATION_FAIL)
        (fun p => if p = [1] then some [7] else none) := by
  have hadm : Admitted (Skein3fish.sampleJob true [7]) := (admitted_iff rfl).mpr (by decide)
  have hsize : (Skein3fish.sampleJob true [7]).args.file_size = 1 := rfl
  refine ⟨hadm, fun h => ?_, ?_⟩
  · have := (headerQueued_iff (Option.some_ne_none _)).mp h
    omega
  · exact .notQueued hadm.1 rfl rfl
      ((queueHeader_of_room rfl (Queue.hasRoom_iff.mpr (by decide))).2 hsize.le)

end Controller

end Threefizer
