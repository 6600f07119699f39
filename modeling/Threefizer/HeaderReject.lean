/-
# A header that is rejected

When the header does not decrypt to a valid one, `authenticateMAC` sets
`HEADER_CHECK_FAIL` and passes nothing on. The other threads may be anywhere
at that moment; `decryptQueue` still puts `DONE` on the queue of the writer,
which would rename on it. `Rejected` is why it does not: nothing but `DONE`
ever gets past the header check, and that only after the error is set. So the
writer has nothing to write and finds an error when it leaves its loop.
-/
import Threefizer.Controller

namespace Threefizer

open Words Queue

/-! ### The threads -/

namespace AuthThread

variable {sk : Skein} {tf : Threefish} {tf_key : ThreefishKey} {mc : MacCtx sk} {l l' : Local sk}
  {fl fl' : Flags} {inq inq' out out' : Queue} {hd m : Chunk} {final : sk.Ctx} {outs : List Chunk}

/-- The thread is on its way to the rejection of the header, or has set the error. -/
def Rejecting (l : Local sk) (error : Option Error) : Prop :=
  l.header = true ∧
    match l.pc with
    | .testRunning | .testError | .fetch => l.mac_chunk = none ∧ error = none
    | .headerAlloc => error = none
    | .fail code => code = .HEADER_CHECK_FAIL ∧ error = none
    | .returned => error = some .HEADER_CHECK_FAIL
    | _ => False

/-- The first chunk taken out is the header. -/
theorem front_of_waits {c : Chunk} {x : List Chunk} (hW : Waits mc hd m final l (inq.elements ++ x) outs)
    (hh : l.header = true) (hf : inq.front = some c) : c = hd ∧ isLast c = false := by
  obtain ⟨-, -, ds, ⟨hact, hins⟩, -, -, hfirst⟩ := hW
  obtain ⟨ds', rfl⟩ := List.head?_eq_some_iff.mp (hfirst hh)
  rw [front_eq_some hf, List.cons_append, List.cons_append] at hins
  obtain ⟨rfl, -⟩ := List.cons.inj hins
  exact ⟨rfl, hact _ List.mem_cons_self⟩

/-- If the header is not valid and no allocation fails, the thread rejects it
without putting anything out. -/
theorem step_rejecting (h : step tf tf_key mc l fl inq out .success = some (l', fl', inq', out'))
    (hbad : headerSize tf tf_key hd = none) (hrun : fl.running = true)
    (hrest : fl.error = none → ∃ x outs, Rest mc hd m final l (inq.elements ++ x) outs)
    (hR : Rejecting l fl.error) :
    Rejecting l' fl'.error ∧ out' = out ∧ fl'.running = fl.running := by
  obtain ⟨hh, hpc⟩ := hR
  obtain ⟨pc, hdr, md, mch, ctx, cm, st⟩ := l
  cases hh
  cases pc with
  | testRunning => cases h; rw [hrun]; exact ⟨⟨rfl, hpc⟩, rfl, rfl⟩
  | testError =>
    obtain ⟨hc, herr⟩ := hpc
    cases hc
    simp only [step, if_pos herr] at h
    cases h
    exact ⟨⟨rfl, rfl, herr⟩, rfl, rfl⟩
  | fetch =>
    obtain ⟨hc, herr⟩ := hpc
    obtain ⟨x, outs, hW⟩ := hrest herr
    simp only [step] at h
    split at h
    · cases h
    · split at h
      next => cases h; exact ⟨⟨rfl, hc, herr⟩, rfl, rfl⟩
      next c hf =>
        cases h
        obtain ⟨rfl, hlast⟩ := front_of_waits hW rfl hf
        have hwork : work mc ⟨.fetch, true, md, mch, ctx, cm, st⟩ c =
            ⟨.headerAlloc, true, md, some c, ctx, cm, st⟩ := by
          simp [work, hlast]
        rw [hwork]
        exact ⟨⟨rfl, herr⟩, rfl, rfl⟩
  | headerAlloc =>
    obtain ⟨x, outs, -, -, hc, -⟩ := hrest hpc
    simp only [step, show mch = some hd from hc, Option.map_some, hbad] at h
    cases h
    exact ⟨⟨rfl, rfl, hpc⟩, rfl, rfl⟩
  | fail code => cases h; rw [hpc.1]; exact ⟨⟨rfl, rfl⟩, rfl, rfl⟩
  | returned => cases h
  | _ => exact hpc.elim

theorem Rejecting.error_of_returned {error : Option Error} (h : Rejecting l error) (hp : l.pc = .returned) :
    error = some .HEADER_CHECK_FAIL := by
  obtain ⟨-, hpc⟩ := h
  rwa [hp] at hpc

end AuthThread

namespace DecryptThread

variable {tf : Threefish} {tf_key : ThreefishKey} {l l' : Local} {fl fl' : Flags} {inq inq' out out' : Queue}

/-- The thread has no chunk, and is past its loop only after an error. -/
def Unused (l : Local) (error : Option Error) : Prop :=
  l.decrypt_chunk = none ∧
    match l.pc with
    | .tryEnque | .fail _ => False
    | .doneIsFull | .queueDone | .returned => error ≠ none
    | _ => True

theorem Unused.mono {error error' : Option Error} (h : Unused l error) (he : error ≠ none → error' ≠ none) :
    Unused l error' := by
  obtain ⟨hc, hpc⟩ := h
  obtain ⟨pc, st, de, dc⟩ := l
  refine ⟨hc, ?_⟩
  cases pc <;> first | exact hpc | exact he hpc

/-- A thread without input puts out `DONE` after an error, and nothing else. -/
theorem step_unused (h : step tf tf_key l fl inq out .success = some (l', fl', inq', out')) (hrun : fl.running = true)
    (hempty : inq.elements = []) (hroom : Ready l out) (hU : Unused l fl.error) :
    Unused l' fl.error ∧ fl' = fl ∧ inq' = inq ∧
      ∀ c ∈ out'.elements, c ∈ out.elements ∨ (c = doneChunk ∧ fl.error ≠ none) := by
  obtain ⟨hc, hpc⟩ := hU
  obtain ⟨pc, st, de, dc⟩ := l
  cases hc
  have hout : ∀ c ∈ out.elements, c ∈ out.elements ∨ (c = doneChunk ∧ fl.error ≠ none) := fun _ => Or.inl
  cases pc with
  | alloc => cases h; exact ⟨⟨rfl, trivial⟩, rfl, rfl, hout⟩
  | testRunning => cases h; rw [hrun]; exact ⟨⟨rfl, trivial⟩, rfl, rfl, hout⟩
  | testError =>
    simp only [step] at h
    split at h <;> cases h
    next => exact ⟨⟨rfl, trivial⟩, rfl, rfl, hout⟩
    next he => exact ⟨⟨rfl, he⟩, rfl, rfl, hout⟩
  | fetch =>
    have hf : inq.front = none := by rw [front, hempty]; rfl
    simp only [step, hf] at h
    split at h <;> cases h
    exact ⟨⟨rfl, trivial⟩, rfl, rfl, hout⟩
  | doneIsFull =>
    cases h
    refine ⟨⟨rfl, ?_⟩, rfl, rfl, hout⟩
    cases out.queueIsFull <;> exact hpc
  | queueDone =>
    simp only [step] at h
    split at h
    · cases h
    · split at h
      next out'' hq =>
        cases h
        refine ⟨⟨rfl, hpc⟩, rfl, rfl, fun c hc => ?_⟩
        rw [(enque_eq_some hq).1] at hc
        exact (List.mem_append.mp hc).imp id fun hc => ⟨List.mem_singleton.mp hc, hpc⟩
      next hq => exact absurd hq (enque_ne_none (hroom rfl))
  | returned => cases h
  | _ => exact hpc.elim

end DecryptThread

namespace WriteThread

variable {P : WriteParams} {l l' : Local} {fl fl' : Flags} {inq inq' : Queue} {fs fs' : FileSystem}

/-- The writer has had no chunk but `DONE`, and it is past its loop only after
an error. -/
def Unused (l : Local) (error : Option Error) : Prop :=
  (∀ c, l.write_chunk = some c → c = doneChunk ∧ error ≠ none) ∧ l.written = [] ∧
    match l.pc with
    | .openFile | .testRunning | .testError | .fetch | .testValid => True
    | .lastError | .returned => error ≠ none
    | _ => False

theorem Unused.mono {error error' : Option Error} (h : Unused l error) (he : error ≠ none → error' ≠ none) :
    Unused l error' := by
  obtain ⟨hc, hw, hpc⟩ := h
  obtain ⟨pc, wc, bw, btw, w⟩ := l
  refine ⟨fun c hc' => (hc c hc').imp id he, hw, ?_⟩
  cases pc <;> first | exact hpc | exact he hpc

theorem unused_useChunk {error : Option Error} (hc : ∀ c, l.write_chunk = some c → c = doneChunk ∧ error ≠ none)
    (hw : l.written = []) : Unused (useChunk l) error := by
  unfold useChunk
  split
  next c hc' =>
    obtain ⟨rfl, -⟩ := hc c hc'
    exact ⟨hc, hw, trivial⟩
  next => exact ⟨hc, hw, trivial⟩

theorem unused_testDone {error : Option Error} (hc : ∀ c, l.write_chunk = some c → c = doneChunk ∧ error ≠ none)
    (hw : l.written = []) : Unused (testDone P l) error := by
  unfold testDone
  split
  next hd =>
    obtain ⟨c, hc', -⟩ := hd
    exact ⟨hc, hw, (hc c hc').2⟩
  next =>
    split
    · exact ⟨hc, hw, trivial⟩
    · exact unused_useChunk hc hw

/-- A writer whose queue holds nothing but `DONE`, put there after an error,
does nothing to the files but open the temp file. -/
theorem step_unused (h : step P l fl inq fs .success = some (l', fl', inq', fs')) (hrun : fl.running = true)
    (hvalid : fl.valid = false) (hin : ∀ c ∈ inq.elements, c = doneChunk ∧ fl.error ≠ none)
    (hU : Unused l fl.error) :
    Unused l' fl.error ∧ fl' = fl ∧ (∀ c ∈ inq'.elements, c ∈ inq.elements) ∧
      (fs' = fs ∨ fs' = fs.openForWrite P.temp_file_name) := by
  obtain ⟨hc, hw, hpc⟩ := hU
  obtain ⟨pc, wc, bw, btw, w⟩ := l
  cases pc with
  | openFile => cases h; exact ⟨⟨hc, hw, trivial⟩, rfl, fun _ => id, Or.inr rfl⟩
  | testRunning => cases h; rw [hrun]; exact ⟨⟨hc, hw, trivial⟩, rfl, fun _ => id, Or.inl rfl⟩
  | testError =>
    simp only [step] at h
    split at h
    next =>
      cases wc <;> cases h
      · exact ⟨⟨hc, hw, trivial⟩, rfl, fun _ => id, Or.inl rfl⟩
      · exact ⟨unused_testDone hc hw, rfl, fun _ => id, Or.inl rfl⟩
    next he => cases h; exact ⟨⟨hc, hw, he⟩, rfl, fun _ => id, Or.inl rfl⟩
  | fetch =>
    simp only [step] at h
    split at h
    · cases h
    · split at h <;> cases h
      next => exact ⟨unused_testDone hc hw, rfl, fun _ => id, Or.inl rfl⟩
      next c hf =>
        refine ⟨unused_testDone (fun d hd => ?_) hw, rfl, fun _ => List.mem_of_mem_tail, Or.inl rfl⟩
        cases hd
        exact hin c (by rw [front_eq_some hf]; exact List.mem_cons_self)
  | testValid =>
    simp only [step, hvalid] at h
    cases h
    exact ⟨unused_useChunk hc hw, rfl, fun _ => id, Or.inl rfl⟩
  | lastError =>
    simp only [step, if_neg hpc] at h
    cases h
    exact ⟨⟨hc, hw, hpc⟩, rfl, fun _ => id, Or.inl rfl⟩
  | returned => cases h
  | _ => exact hpc.elim

end WriteThread

/-! ### The run -/

namespace DecryptRun

variable {J : Job}

/-- No call fails. -/
def NoFailure (_ : State J) (a : Thread × Outcome) : Prop := a.2 = .success

instance (s : State J) (a : Thread × Outcome) : Decidable (NoFailure s a) := inferInstanceAs (Decidable (_ = _))

/-- Nothing has got past the header check but `DONE`, and that after the error was set. -/
structure Rejected (fs : FileSystem) (s : State J) : Prop where
  running : s.fl.running = true
  read : ∀ code, s.read.pc ≠ .fail code
  mac : AuthThread.Rejecting s.mac s.fl.error
  crypto_queue : s.crypto_queue.elements = []
  crypt : DecryptThread.Unused s.crypt s.fl.error
  write_queue : ∀ c ∈ s.write_queue.elements, c = doneChunk ∧ s.fl.error ≠ none
  write : WriteThread.Unused s.write s.fl.error
  files : s.fs = fs ∨ s.fs = fs.openForWrite J.temp_file_name

theorem start_rejected (fs : FileSystem) : Rejected fs (start J fs) where
  running := rfl
  read := nofun
  mac := ⟨rfl, rfl, rfl⟩
  crypto_queue := rfl
  crypt := ⟨rfl, trivial⟩
  write_queue := nofun
  write := ⟨nofun, rfl, trivial⟩
  files := Or.inl rfl

theorem Rejected.step {fs : FileSystem} {s s' : State J} {a : Thread × Outcome} (hJ : Admissible J)
    (hbad : J.headerSize = none) (hI : Inv s) (hok : NoFailure s a) (hstep : DecryptRun.step s a = some s')
    (hR : Rejected fs s) : Rejected fs s' := by
  obtain ⟨t, o⟩ := a
  cases hok
  cases t with
  | read =>
    obtain ⟨⟨l, fl, out⟩, hx, rfl⟩ := Option.map_eq_some_iff.mp hstep
    have h := Reader.moves_of_step hx
    have herr := h.keeps_error hR.read
    exact { hR with
      running := (Flags.running_of_error h.flags).trans hR.running
      read := fun code hp => by
        rcases (Reader.step_fail hx hI.readReady hp).2 with hsmall | ho
        · simp [reader, decryptReader, hJ.big] at hsmall
        · exact ho rfl
      mac := by rw [herr]; exact hR.mac
      crypt := by rw [herr]; exact hR.crypt
      write_queue := by rw [herr]; exact hR.write_queue
      write := by rw [herr]; exact hR.write }
  | mac =>
    obtain ⟨⟨l, fl, inq, out⟩, hx, rfl⟩ := Option.map_eq_some_iff.mp hstep
    have hkeep : s.fl.error ≠ none → fl.error ≠ none := mt (AuthThread.moves_of_step hx).later.2
    obtain ⟨hmac, rfl, hrun⟩ := AuthThread.step_rejecting hx hbad hR.running
      (fun herr => by
        obtain ⟨x, a, -, -, ha, -, -⟩ := hI.flow ⟨hR.running, herr⟩
        exact ⟨x, a, ha⟩) hR.mac
    exact { hR with
      running := hrun.trans hR.running
      mac := hmac
      crypt := hR.crypt.mono hkeep
      write_queue := fun c hc => (hR.write_queue c hc).imp id hkeep
      write := hR.write.mono hkeep }
  | crypt =>
    obtain ⟨⟨l, fl, inq, out⟩, hx, rfl⟩ := Option.map_eq_some_iff.mp hstep
    obtain ⟨hcrypt, rfl, rfl, hout⟩ :=
      DecryptThread.step_unused hx hR.running hR.crypto_queue hI.cryptReady hR.crypt
    exact { hR with
      crypt := hcrypt
      write_queue := fun c hc => (hout c hc).elim (hR.write_queue c) id }
  | write =>
    obtain ⟨⟨l, fl, inq, fs'⟩, hx, rfl⟩ := Option.map_eq_some_iff.mp hstep
    have hvalid : s.fl.valid = false := by rw [hI.valid, hR.mac.1]; rfl
    obtain ⟨hwrite, rfl, hin, hfs⟩ :=
      WriteThread.step_unused hx hR.running hvalid hR.write_queue hR.write
    exact { hR with
      write_queue := fun c hc => hR.write_queue c (hin c hc)
      write := hwrite
      files := by
        rcases hfs with rfl | rfl
        · exact hR.files
        · refine Or.inr ?_
          rcases hR.files with h | h <;> rw [h]
          · rfl
          · exact FileSystem.openForWrite_openForWrite _ _ }

/-- In every run in which no call fails. -/
theorem reachable_rejected (hJ : Admissible J) (hbad : J.headerSize = none) {fs : FileSystem} {s : State J}
    (hs : Lts.Reach step NoFailure (start J fs) s) : Rejected fs s :=
  hs.invariant' (fun _ hs => reachable_inv (start_inv hJ fs) hs.reachable) (start_rejected fs)
    fun _ _ _ hI hR hok hstep => hR.step hJ hbad hI hok hstep

theorem Rejected.not_rename {fs : FileSystem} {s : State J} (hR : Rejected fs s) : s.write.pc ≠ .rename := by
  intro hp
  have h := hR.write.2.2
  rwa [hp] at h

end DecryptRun

/-! ### The controller -/

/-- A header that is rejected leaves everything as it was: if no call fails,
nothing is written in any state of any run, the temp file is not renamed, and
`runThreefizer` returns `HEADER_CHECK_FAIL` with the target unchanged. -/
theorem rejected_header_touches_nothing (J : Job) (hdec : J.args.encrypt = false) (hJ : DecryptRun.Admissible J)
    (hbad : J.headerSize = none) (htemp : J.args.target_file ≠ J.temp_file_name) (fs : FileSystem) :
    (∀ s, Lts.Reach DecryptRun.step DecryptRun.NoFailure (DecryptRun.start J fs) s →
      s.write.written = [] ∧ s.write.pc ≠ .rename ∧
        s.fs J.args.target_file = fs J.args.target_file ∧
        (s.fs = fs ∨ s.fs = fs.openForWrite J.temp_file_name)) ∧
    ∀ encryptOk error fs', Controller.Ends J encryptOk DecryptRun.NoFailure true fs error fs' →
      error = some .HEADER_CHECK_FAIL ∧ fs' J.args.target_file = fs J.args.target_file := by
  have htarget : ∀ fs', fs' = fs ∨ fs' = fs.openForWrite J.temp_file_name →
      fs' J.args.target_file = fs J.args.target_file := by
    rintro fs' (rfl | rfl)
    · rfl
    · exact FileSystem.set_other _ _ htemp
  refine ⟨fun s hs => ?_, fun encryptOk error fs' hend => ?_⟩
  · have hR := DecryptRun.reachable_rejected hJ hbad hs
    exact ⟨hR.write.2.1, hR.not_rename, htarget _ hR.files, hR.files⟩
  · cases hend with
    | tooSmall h =>
      rcases h with ⟨henc, -⟩ | ⟨-, hsmall⟩
      · exact absurd (hdec.symm.trans henc) (by decide)
      · rw [J.file_size_eq, J.state_size_eq, hJ.big] at hsmall
        cases hsmall
    | noKeys _ h => cases h
    | notQueued _ _ henc _ => exact absurd (hdec.symm.trans henc) (by decide)
    | encrypted _ _ henc _ _ _ => exact absurd (hdec.symm.trans henc) (by decide)
    | @decrypted s _ _ _ hs hret =>
      have hR := DecryptRun.reachable_rejected hJ hbad hs
      refine ⟨hR.mac.error_of_returned hret.2.1, ?_⟩
      rw [Controller.cleanUp_other _ htemp]
      exact htarget _ hR.files

/-- A file that is none of this program's. -/
def foreignFile : List Byte := List.replicate 160 0

theorem rejected_header_sample :
    ∃ s : DecryptRun.State (Skein3fish.sampleJob false foreignFile),
      Lts.Reach DecryptRun.step DecryptRun.NoFailure (DecryptRun.start _ fun _ => none) s ∧
      DecryptRun.Returned s ∧ s.write.written = [] ∧ s.fl.error = some .HEADER_CHECK_FAIL := by
  have hrun : (Lts.run DecryptRun.step DecryptRun.NoFailure
      (DecryptRun.start (Skein3fish.sampleJob false foreignFile) fun _ => none)
      (DecryptRun.steps .read 17 ++ DecryptRun.steps .mac 5 ++ DecryptRun.steps .crypt 5 ++
        DecryptRun.steps .write 4)).any (fun s => decide (DecryptRun.Returned s)) = true := by decide +kernel
  obtain ⟨s, hs, hp⟩ := Lts.Reach.of_run_any hrun
  have hret := of_decide_eq_true hp
  have hmain := rejected_header_touches_nothing (Skein3fish.sampleJob false foreignFile) rfl
    ⟨by decide +kernel, by decide +kernel⟩ (by decide +kernel) (by decide) (fun _ => none)
  have hbig : ¬ Controller.TooSmall (Skein3fish.sampleJob false foreignFile) := by
    rintro (⟨h, -⟩ | ⟨-, h⟩)
    · cases h
    · exact absurd h (by decide +kernel)
  have hends : Controller.Ends (Skein3fish.sampleJob false foreignFile) (fun _ _ => True) DecryptRun.NoFailure true
      (fun _ => none) s.fl.error _ := .decrypted hbig rfl rfl hs hret
  exact ⟨s, hs, hret, (hmain.1 s hs).1, (hmain.2 _ _ _ hends).1⟩

end Threefizer
