/-
# The writer's exit at the byte count

A decrypting writer leaves its loop in three ways. `DONE` reaches it only
after the tag is accepted, and a cleared flag or an error keeps it from
renaming. But it also leaves as soon as it has written the number of bytes the
header says, and then it renames the temp file and clears `running`, whatever
`authenticateMAC` has got to.

* Left before the tag is accepted, the exit renames a file that is not
  authenticated (`rename_before_tag`); if it is not, every rename comes after
  the tag is accepted (`renames_after_tag`).
* Left before `authenticateMAC` is past its last look at `running`, it makes
  that thread reject a genuine file (`genuine_rejected`); if no look comes too
  late, no genuine file is rejected (`never_rejects_genuine`).
-/
import Threefizer.DecryptRun
import Threefizer.RoundTrip

namespace Threefizer

open Words Queue

namespace DecryptRun

variable {J : Job}

/-! ### The tag before the rename -/

/-- The thread that checks the tag has accepted it. -/
abbrev TagAccepted (s : State J) : Prop := AuthThread.Accepted J.mac_context s.mac

/-- The writer leaves at the byte count only after the tag is accepted. -/
def TagFirst (s : State J) (a : Thread × Outcome) : Prop :=
  a.1 = .write → s.write.pc = .testSize → s.fl.new_file_size ≤ s.write.bytes_written → TagAccepted s

instance (s : State J) (a : Thread × Outcome) : Decidable (TagFirst s a) := by
  unfold TagFirst; infer_instance

/-- The tag is accepted, or the threads are disturbed. -/
def Excused (s : State J) : Prop := TagAccepted s ∨ s.fl.running = false ∨ s.fl.error ≠ none

/-- `DONE` is nowhere behind a tag that is not accepted, and neither is the rename. -/
structure Gated (s : State J) : Prop where
  passing : AuthThread.Passing s.mac
  crypto : s.crypto_queue.HasDone → Excused s
  crypt : DecryptThread.Ends s.crypt → Excused s
  write : s.write_queue.HasDone → Excused s
  chunk : ∀ c, s.write.write_chunk = some c → c.action = .DONE → Excused s
  past : WriteThread.Past s.write s.fl → TagAccepted s

theorem start_gated (fs : FileSystem) : Gated (start J fs) where
  passing := nofun
  crypto := by rintro ⟨c, hc, -⟩; cases hc
  crypt := by rintro (h | h | ⟨c, hc, -⟩) <;> first | cases h | cases hc
  write := by rintro ⟨c, hc, -⟩; cases hc
  chunk := nofun
  past := fun h => h.elim

section Step

variable {s s' : State J} {t : Thread}

theorem TagAccepted.step (h : Moves s t s') (hI : Inv s) (ha : TagAccepted s) : TagAccepted s' := by
  cases h with
  | mac h => exact h.accepted hI.verdict ha
  | _ => exact ha

theorem Excused.step (h : Moves s t s') (hI : Inv s) (he : Excused s) : Excused s' := by
  rcases he with ha | hr | herr
  · exact Or.inl (TagAccepted.step h hI ha)
  · refine Or.inr (Or.inl ?_)
    by_contra hr'
    exact absurd (hr.symm.trans (h.later.1 (by simpa using hr'))) (by decide)
  · exact Or.inr (Or.inr fun herr' => herr (h.later.2 herr'))

theorem Gated.step (h : Moves s t s') (hI : Inv s) (hok : t = .write → s.write.pc = .testSize →
    s.fl.new_file_size ≤ s.write.bytes_written → TagAccepted s) (hG : Gated s) : Gated s' := by
  have hex : Excused s → Excused s' := Excused.step h hI
  have hacc : TagAccepted s → TagAccepted s' := TagAccepted.step h hI
  have hlater := h.later
  cases h with
  | read h =>
    exact
      { passing := hG.passing
        crypto := fun h => hex (hG.crypto h)
        crypt := fun h => hex (hG.crypt h)
        write := fun h => hex (hG.write h)
        chunk := fun c hc hd => hex (hG.chunk c hc hd)
        past := fun h => hacc (hG.past (h.mono hlater.2)) }
  | mac h =>
    exact
      { passing := h.passing (out_action_ne J).2 hG.passing
        crypto := fun hd => (h.puts_done hG.passing hI.judged hd).elim
          (fun hd => hex (hG.crypto hd)) fun ha => Or.inl (hacc ha)
        crypt := fun h => hex (hG.crypt h)
        write := fun h => hex (hG.write h)
        chunk := fun c hc hd => hex (hG.chunk c hc hd)
        past := fun h => hacc (hG.past (h.mono hlater.2)) }
  | crypt h =>
    have hends : DecryptThread.Ends s.crypt → Excused s := hG.crypt
    exact
      { passing := hG.passing
        crypto := fun hd => hex (hG.crypto (hd.of_takes h.takes))
        crypt := fun he => hex <| by
          rcases h.ends he with h | h | h | h
          · exact hends h
          · exact hG.crypto h
          · exact Or.inr (Or.inl h)
          · exact Or.inr (Or.inr h)
        write := fun hd => hex ((h.puts_done hd).elim hG.write hends)
        chunk := fun c hc hd => hex (hG.chunk c hc hd)
        past := fun h => hacc (hG.past (h.mono hlater.2)) }
  | @write l fl inq fs h =>
    have hrun := hI.runs h.not_returned
    have hchunk : ∀ c, l.write_chunk = some c → c.action = .DONE → Excused s := fun c hc hd =>
      (h.takes_chunk hc).elim (fun hc => hG.chunk c hc hd) fun hc => hG.write ⟨c, hc, hd⟩
    exact
      { passing := hG.passing
        crypto := fun h => hex (hG.crypto h)
        crypt := fun h => hex (hG.crypt h)
        write := fun hd => hex (hG.write (hd.of_takes h.takes))
        chunk := fun c hc hd => hex (hchunk c hc hd)
        past := by
          intro hp
          rcases h.past hrun hp with ⟨hp', -⟩ | ⟨-, herr, -, ⟨c, hc, hd⟩ | ⟨hpc, hn⟩⟩
          · exact hacc (hG.past hp')
          · -- `DONE` in hand, and nothing is disturbed
            rcases hchunk c hc hd with ha | hr | he
            · exact hacc ha
            · exact absurd (hrun.symm.trans hr) (by decide)
            · exact absurd herr he
          · exact hacc (hok rfl hpc hn) }

end Step

/-- In a run in which the writer never leaves at the byte count before the tag
is accepted, it renames only after the stored tag has been found equal to the
MAC of the header and the ciphertext. -/
theorem renames_after_tag (J : Job) (hJ : Admissible J) (fs : FileSystem) (s : State J)
    (hs : Lts.Reach step TagFirst (start J fs) s) (hp : s.write.pc = .rename) :
    TagAccepted s ∧ J.storedTag = J.sk.tag J.state_size J.mac_key J.authenticated := by
  have hI : ∀ s, Lts.Reach step TagFirst (start J fs) s → Inv s := fun s hs =>
    reachable_inv (start_inv hJ fs) hs.reachable
  have hG : Gated s := hs.invariant' hI (start_gated fs) fun s a s' hI hG hok hstep =>
    hG.step (moves_of_step hstep) hI hok
  have hacc : TagAccepted s := hG.past (by unfold WriteThread.Past; rw [hp]; trivial)
  exact ⟨hacc, (hI s hs).accepted hJ hacc⟩

theorem renames_after_tag_sample :
    ∃ s : State (Skein3fish.sampleJob false Skein3fish.sampleFile),
      Lts.Reach step TagFirst (start _ fun _ => none) s ∧ s.write.pc = .rename ∧ TagAccepted s ∧
        (Skein3fish.sampleJob false Skein3fish.sampleFile).storedTag =
          Skein3fish.skein.tag .Skein256 (Skein3fish.sampleJob false Skein3fish.sampleFile).mac_key
            (Skein3fish.sampleJob false Skein3fish.sampleFile).authenticated := by
  have hrun : (Lts.run step TagFirst (start (Skein3fish.sampleJob false Skein3fish.sampleFile) fun _ => none)
      (steps .read 17 ++ steps .mac 24 ++ steps .crypt 13 ++ steps .write 12)).any
        (fun s => decide (s.write.pc = .rename)) = true := by decide +kernel
  obtain ⟨s, hs, hp⟩ := Lts.Reach.of_run_any hrun
  have hp := of_decide_eq_true hp
  exact ⟨s, hs, hp, renames_after_tag _ sample_admissible _ s hs hp⟩

/-- The writer can rename a file with a wrong tag: its last word is changed. -/
theorem rename_before_tag : ¬ ∀ (J : Job), Admissible J → ∀ (fs : FileSystem) (s : State J),
    Lts.Reachable step (start J fs) s → s.write.pc = .rename → TagAccepted s := by
  intro h
  have hrun : (Lts.run step (fun _ _ => True)
      (start (Skein3fish.sampleJob false (Skein3fish.sampleFile.take 120 ++ List.replicate 8 0)) fun _ => none)
      (steps .read 17 ++ steps .mac 14 ++ steps .crypt 8 ++ steps .write 14)).any
        (fun s => decide (s.write.pc = .rename ∧ ¬ TagAccepted s)) = true := by decide +kernel
  obtain ⟨s, hs, hp⟩ := Lts.Reach.of_run_any hrun
  obtain ⟨hp, hacc⟩ := of_decide_eq_true hp
  exact hacc (h _ ⟨by decide +kernel, by decide +kernel⟩ _ s hs hp)

/-! ### No genuine file is rejected -/

/-- `authenticateMAC` looks at `running` only while that is set. -/
def LooksInTime (s : State J) (a : Thread × Outcome) : Prop :=
  a.1 = .mac → s.mac.pc = .testRunning ∨ s.mac.pc = .test2Running → s.fl.running = true

instance (s : State J) (a : Thread × Outcome) : Decidable (LooksInTime s a) := by
  unfold LooksInTime; infer_instance

/-- There is no error, and no thread is about to set one. -/
structure Clean (s : State J) : Prop where
  error : s.fl.error = none
  read : ∀ code, s.read.pc ≠ .fail code
  mac : ∀ code, s.mac.pc ≠ .fail code
  crypt : ∀ code, s.crypt.pc ≠ .fail code
  write : ¬ WriteThread.Failing s.write

theorem start_clean (fs : FileSystem) : Clean (start J fs) where
  error := rfl
  read := nofun
  mac := nofun
  crypt := nofun
  write := by rintro (⟨code, h⟩ | h) <;> cases h

/-- On a file with a valid header and the right tag nothing but a failing call
or a cleared `running` makes a thread fail. -/
theorem Clean.step {s s' : State J} {a : Thread × Outcome} (hJ : Admissible J) (hn : J.headerSize ≠ none)
    (htag : J.storedTag = J.sk.tag J.state_size J.mac_key J.authenticated)
    (h : DecryptRun.step s a = some s') (hI : Inv s) (hgood : a.2 = .success) (hlook : LooksInTime s a)
    (hC : Clean s) : Clean s' := by
  obtain ⟨t, o⟩ := a
  cases t <;> obtain ⟨⟨_, _⟩, hx, rfl⟩ := Option.map_eq_some_iff.mp h
  case read =>
    refine { hC with
      error := (Reader.moves_of_step hx).keeps_error hC.read |>.trans hC.error
      read := fun code hf => ?_ }
    rcases (Reader.step_fail hx hI.readReady hf).2 with hs | ho
    · simp [reader, decryptReader, hJ.big] at hs
    · exact ho hgood
  case mac =>
    refine { hC with
      error := (AuthThread.moves_of_step hx).keeps_error hC.mac |>.trans hC.error
      mac := fun code hf => ?_ }
    cases AuthThread.step_fail hx hI.macReady hf with
    | memory _ ho => exact ho hgood
    | header hp hc hsize =>
      cases hc.symm.trans (hI.headerChunk hC.error hp)
      exact hn hsize
    | stopped hp hr => exact absurd ((hlook rfl (Or.inr hp)).symm.trans hr) (by decide)
    | error _ he => exact he hC.error
    | tag hp hf hne =>
      have hs := hI.sees
      unfold AuthThread.Sees at hs
      rw [hp] at hs
      cases hf.symm.trans hs.1
      refine hne ⟨rfl, ?_⟩
      rw [hs.2]
      exact (accepts_macChunk hJ.big _).mpr htag
  case crypt =>
    refine { hC with
      error := (DecryptThread.moves_of_step hx).keeps_error hC.crypt |>.trans hC.error
      crypt := fun code hf => ?_ }
    exact (DecryptThread.step_fail hx hI.cryptReady hf).2 hgood
  case write =>
    exact { hC with
      error := (WriteThread.moves_of_step hx).keeps_error hC.write |>.trans hC.error
      write := fun hf => WriteThread.step_failing hx hf hgood }

/-- Decrypting a file this program has encrypted ends without error in every
run in which no call fails and `authenticateMAC` never looks at `running` after
it is cleared. -/
theorem never_rejects_genuine (J : Job) {iv : List Word} {file : List Byte}
    (hinv : J.tf.Inverts J.tf_key) (hiv : J.args.iv = some iv) (hlen : iv.length = J.state_size.words)
    (hsize : 2 ≤ J.file.length) (hfits : J.file.length < 2 ^ 63)
    (hfile : encryptFile J J.max_chunk = some file) (args : Arguments)
    (hs : args.state_size = J.state_size) (hf : args.file_size = file.length) (fs : FileSystem)
    (s : State (J.reading args file hs hf))
    (hr : Lts.Reach step (fun s a => a.2 = .success ∧ LooksInTime s a)
      (start (J.reading args file hs hf) fs) s) :
    s.fl.error = none := by
  cases (encryptFile_eq hiv hlen hsize J.max_chunk_pos J.max_chunk_dvd (J.reads _)).symm.trans hfile
  obtain ⟨hbig, h64⟩ := image_big (J := J) hlen (by omega) hfits
  have hJ : Admissible (J.reading args (J.image iv) hs hf) := ⟨hbig, h64⟩
  have hn := reading_headerSize hs hf hinv hlen (by omega)
  have htag := reading_storedTag hs hf hlen
  exact (hr.invariant' (fun s hs => reachable_inv (start_inv hJ fs) hs.reachable) (start_clean fs)
    fun s a s' hI hC hok hstep =>
      hC.step hJ (by rw [hn]; exact Option.some_ne_none _) htag hstep hI hok.1 hok.2).error

theorem sample_encrypted :
    encryptFile (Skein3fish.sampleJob true Skein3fish.sampleText) MAX_CHUNK_SIZE =
      some Skein3fish.sampleFile := by decide +kernel

theorem never_rejects_genuine_sample :
    ∃ s : State (Skein3fish.sampleJob false Skein3fish.sampleFile),
      Lts.Reach step (fun s a => a.2 = .success ∧ LooksInTime s a) (start _ fun _ => none) s ∧
        Returned s ∧ s.fl.error = none := by
  have hrun : (Lts.run step (fun s a => a.2 = .success ∧ LooksInTime s a)
      (start (Skein3fish.sampleJob false Skein3fish.sampleFile) fun _ => none)
      (steps .read 17 ++ steps .mac 24 ++ steps .crypt 13 ++ steps .write 14)).any
        (fun s => decide (Returned s)) = true := by decide +kernel
  obtain ⟨s, hs, hp⟩ := Lts.Reach.of_run_any hrun
  exact ⟨s, hs, of_decide_eq_true hp,
    never_rejects_genuine (Skein3fish.sampleJob true Skein3fish.sampleText) (Skein3fish.threefish_inverts _)
      rfl rfl (by decide) (by decide) sample_encrypted (Skein3fish.sampleJob false Skein3fish.sampleFile).args
      rfl rfl _ s hs⟩

/-- A genuine file can be rejected although no call fails: the writer has
written it, and `authenticateMAC` looks at `running` after that. -/
theorem genuine_rejected :
    encryptFile (Skein3fish.sampleJob true Skein3fish.sampleText) MAX_CHUNK_SIZE =
      some Skein3fish.sampleFile ∧
    ∃ s : State (Skein3fish.sampleJob false Skein3fish.sampleFile),
      Lts.Reach step (fun _ a => a.2 = .success) (start _ fun _ => none) s ∧
        Returned s ∧ s.fl.error = some .MAC_CHECK_FAIL := by
  have hrun : (Lts.run step (fun _ a => a.2 = .success)
      (start (Skein3fish.sampleJob false Skein3fish.sampleFile) fun _ => none)
      (steps .read 17 ++ steps .mac 14 ++ steps .crypt 8 ++ steps .write 16 ++ steps .mac 4 ++
        steps .crypt 3)).any
        (fun s => decide (Returned s ∧ s.fl.error = some .MAC_CHECK_FAIL)) = true := by decide +kernel
  obtain ⟨s, hs, hp⟩ := Lts.Reach.of_run_any hrun
  exact ⟨sample_encrypted, s, hs, of_decide_eq_true hp⟩

end DecryptRun

end Threefizer
