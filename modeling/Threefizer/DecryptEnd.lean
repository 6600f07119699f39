/-
# How decryption ends

What holds of the decrypting threads whether or not an error stops them.
* The end markers: each thread puts out `DONE` as the last thing it does.
* The supply: the chunks on the queues, in the hands of the threads and still
  to be read are never more than those of the data, the header and the tag.
* The reader fails at its start only, so not once the header is checked
  (`early`), and `authenticateMAC` does not fail once it has accepted the tag
  (`settled`).

If the writer leaves at the byte count only after the tag is accepted and
`decryptQueue` has got past its allocation, a writer that is past its loop with
no error is followed by none (`Calm`).
-/
import Threefizer.WriterExit

namespace Threefizer

open Words Queue

namespace DecryptRun

variable {J : Job}

/-- The chunks that are on their way, `ds` being those still owed by the reader. -/
def supply (s : State J) (ds : List Chunk) : ℕ :=
  s.write_queue.data + DecryptThread.load s.crypt + s.crypto_queue.data + AuthThread.load s.mac +
    s.mac_queue.data + ds.length

/-- What holds in every state of every run. -/
structure Order (s : State J) : Prop where
  supplied : ∃ ds, (reader J).Owes s.read ds ∧ (∀ d ∈ ds, d.action ≠ .DONE ∧ Countable J.state_size d) ∧
    supply s ds ≤ pieceCount (dataPart J.file J.state_size).length J.max_chunk + 2
  countable : (∀ c ∈ s.mac_queue.elements, Countable J.state_size c) ∧
    (∀ c, s.mac.mac_chunk = some c → Countable J.state_size c) ∧
    ∀ c ∈ s.crypto_queue.elements, Countable J.state_size c
  passing : AuthThread.Passing s.mac
  holding : AuthThread.Holding s.mac
  carryCrypt : DecryptThread.Carrying s.crypt
  opens : s.mac_queue.Open J.que_size ∧ s.crypto_queue.Open J.que_size ∧ s.write_queue.Open J.que_size
  readDone : s.mac_queue.HasDone → s.read.pc = .returned
  macDone : s.crypto_queue.HasDone → s.mac.pc = .returned
  cryptDone : s.write_queue.HasDone → s.crypt.pc = .returned
  writeDone : ∀ c, s.write.write_chunk = some c → c.action = .DONE → s.crypt.pc = .returned
  early : Reader.Early s.read → s.mac_queue.elements = [] ∧ s.mac.mac_chunk = none ∧ s.mac.header = true
  settled : TagAccepted s → AuthThread.Settled s.mac

theorem start_order (hJ : Admissible J) (fs : FileSystem) : Order (start J fs) where
  supplied := ⟨decryptPlan J.file J.state_size J.max_chunk,
    ⟨_, decryptReader_reads hJ.big J.max_chunk_pos (J.reads _) hJ.fits, rfl⟩,
    fun d hd => decryptPlan_countable J.max_chunk_pos J.max_chunk_fits hd, by
      simp [supply, start, Queue.data, createQueue, AuthThread.load, AuthThread.Local.init,
        DecryptThread.load, DecryptThread.Local.init, decryptPlan, macPlan]⟩
  countable := ⟨nofun, nofun, nofun⟩
  passing := nofun
  holding := by rintro (h | h) <;> cases h
  carryCrypt := nofun
  opens := ⟨⟨rfl, rfl⟩, ⟨rfl, rfl⟩, ⟨rfl, rfl⟩⟩
  readDone := fun ⟨c, hc, _⟩ => by cases hc
  macDone := fun ⟨c, hc, _⟩ => by cases hc
  cryptDone := fun ⟨c, hc, _⟩ => by cases hc
  writeDone := nofun
  early := fun _ => ⟨rfl, rfl, rfl⟩
  settled := by rintro ⟨m, hm, -⟩; cases hm

section Step

variable {s s' : State J} {t : Thread}

theorem Order.step (h : Moves s t s') (hI : Inv s) (hO : Order s) : Order s' := by
  obtain ⟨ds, howes, hds, hle⟩ := hO.supplied
  cases h with
  | @read l fl out h =>
    have hnot := h.not_returned
    obtain ⟨ds', howes', hsuf, hdata, hdone, hmem⟩ := h.owes howes fun d hd => (hds d hd).1
    exact { hO with
      supplied := ⟨ds', howes', fun d hd => hds d (hsuf.subset hd), by
        simp only [supply] at hle ⊢
        omega⟩
      countable := ⟨fun c hc => by
        rcases hmem c hc with hc | hc | rfl
        · exact hO.countable.1 c hc
        · exact (hds c hc).2
        · exact countable_doneChunk _, hO.countable.2⟩
      opens := ⟨h.opens hI.readReady hO.opens.1, hO.opens.2⟩
      readDone := fun hd => (hdone hd).resolve_left fun h => hnot (hO.readDone h)
      early := fun he => by
        obtain ⟨he', hout⟩ := h.early hI.readReady he
        show out.elements = [] ∧ _
        rw [hout]
        exact hO.early he' }
  | @mac l fl inq out h =>
    have hnot := h.not_returned
    have hload := h.load
    obtain ⟨hcq, hch, hcc⟩ := hO.countable
    obtain ⟨hch', hcc'⟩ := h.sizes (p := fun n => getNumBlocks n J.state_size ≠ none)
      (countable_doneChunk _) hcq hch hcc
    exact { hO with
      supplied := ⟨ds, howes, hds, by
        simp only [supply] at hle ⊢
        omega⟩
      countable := ⟨fun c hc => hcq c (mem_of_takes h.takes hc), hch', hcc'⟩
      passing := h.passing (out_action_ne J).2 hO.passing
      holding := h.holding
      opens := ⟨hO.opens.1.of_takes h.takes, h.opens hI.macReady hO.opens.2.1, hO.opens.2.2⟩
      readDone := fun hd => hO.readDone (hd.of_takes h.takes)
      macDone := fun hd => (h.done_last hO.passing hd).resolve_left fun h => hnot (hO.macDone h)
      early := fun he => by
        obtain ⟨hq, hc, hh⟩ := hO.early he
        exact h.no_chunk hq hc hh
      settled := h.settled hI.macReady hI.verdict hO.settled }
  | @crypt l fl inq out h =>
    have hnot := h.not_returned
    have hload := h.load
    exact { hO with
      supplied := ⟨ds, howes, hds, by
        simp only [supply] at hle ⊢
        omega⟩
      countable := ⟨hO.countable.1, hO.countable.2.1, fun c hc => hO.countable.2.2 c (mem_of_takes h.takes hc)⟩
      carryCrypt := h.carrying hO.carryCrypt
      opens := ⟨hO.opens.1, hO.opens.2.1.of_takes h.takes, h.opens hI.cryptReady hO.opens.2.2⟩
      macDone := fun hd => hO.macDone (hd.of_takes h.takes)
      cryptDone := fun hd => (h.done_last hO.carryCrypt hd).resolve_left fun h => hnot (hO.cryptDone h)
      writeDone := fun c hc hd => absurd (hO.writeDone c hc hd) hnot }
  | @write l fl inq fs h =>
    have hdeq : inq.data ≤ s.write_queue.data := data_of_takes h.takes
    exact { hO with
      supplied := ⟨ds, howes, hds, by
        simp only [supply] at hle ⊢
        omega⟩
      opens := ⟨hO.opens.1, hO.opens.2.1, hO.opens.2.2.of_takes h.takes⟩
      cryptDone := fun hd => hO.cryptDone (hd.of_takes h.takes)
      writeDone := fun c hc hd => (h.takes_chunk hc).elim (fun hc => hO.writeDone c hc hd)
        fun hc => hO.cryptDone ⟨c, hc, hd⟩ }

/-- In every run. -/
theorem reachable_order (hJ : Admissible J) (fs : FileSystem) (h : Lts.Reachable step (start J fs) s) : Order s :=
  h.invariant' (fun _ hs => reachable_inv (start_inv hJ fs) hs.reachable) (start_order hJ fs)
    fun _ _ _ hI hO _ hs => hO.step (moves_of_step hs) hI

end Step

/-! ### After the rename -/

/-- There is no error, and no thread can set one any more. -/
structure Calm (s : State J) : Prop where
  error : s.fl.error = none
  read : ¬ Reader.Early s.read
  mac : TagAccepted s
  crypt : DecryptThread.Started s.crypt

/-- The writer leaves at the byte count only after the tag is accepted and
`decryptQueue` has got past its allocation. -/
def LastExit (s : State J) (a : Thread × Outcome) : Prop :=
  a.1 = .write → s.write.pc = .testSize → s.fl.new_file_size ≤ s.write.bytes_written →
    TagAccepted s ∧ DecryptThread.Started s.crypt

instance (s : State J) (a : Thread × Outcome) : Decidable (LastExit s a) := by
  unfold LastExit; infer_instance

theorem LastExit.tagFirst {s : State J} {a : Thread × Outcome} (h : LastExit s a) : TagFirst s a :=
  fun h1 h2 h3 => (h h1 h2 h3).1

section Step

variable {s s' : State J} {t : Thread}

theorem Calm.step (h : Moves s t s') (hI : Inv s) (hO : Order s) (hw : ¬ WriteThread.Failing s.write)
    (hC : Calm s) : Calm s' := by
  have hacc := TagAccepted.step h hI hC.mac
  cases h with
  | read h =>
    exact { hC with
      error := (h.keeps_error fun code hp => hC.read (Or.inr ⟨code, hp⟩)).trans hC.error
      read := fun he => hC.read (h.early hI.readReady he).1
      mac := hacc }
  | mac h =>
    exact { hC with
      error := (h.keeps_error (hO.settled hC.mac).not_fail).trans hC.error
      mac := hacc }
  | crypt h =>
    exact { hC with
      error := (h.keeps_error hC.crypt.2).trans hC.error
      mac := hacc
      crypt := h.started hI.cryptReady hC.crypt }
  | write h => exact { hC with error := (h.keeps_error hw).trans hC.error }

/-- A writer past its loop with no error leaves the threads calm. -/
theorem calm_step {a : Thread × Outcome} (hstep : DecryptRun.step s a = some s') (hok : LastExit s a) (hI : Inv s)
    (hO : Order s) (hG : Gated s) (hC : WriteThread.Past s.write s.fl → Calm s)
    (hp : WriteThread.Past s'.write s'.fl) : Calm s' := by
  have h := moves_of_step hstep
  have hlater := h.later
  by_cases hpast : WriteThread.Past s.write s.fl
  · exact (hC hpast).step h hI hO hpast.not_failing
  · have hG' := hG.step h hI hok.tagFirst
    have hI' := hI.step h
    have hacc : TagAccepted s' := hG'.past hp
    have hO' := hO.step h hI
    have hread : ¬ Reader.Early s'.read := fun he =>
      absurd ((hO'.early he).2.2.symm.trans (hI'.past hp).2) (by decide)
    obtain ⟨t, o⟩ := a
    cases h with
    | read _ => exact absurd (hp.mono hlater.2) hpast
    | mac _ => exact absurd (hp.mono hlater.2) hpast
    | crypt _ => exact absurd (hp.mono hlater.2) hpast
    | write h =>
      have hrun := hI.runs h.not_returned
      rcases h.past hrun hp with ⟨hp', -⟩ | ⟨hfl, he, -, ⟨c, hc, hd⟩ | ⟨hpc, hn⟩⟩
      · exact absurd hp' hpast
      · have hret := hO'.writeDone c hc hd
        exact ⟨hfl ▸ he, hread, hacc, by rw [DecryptThread.Started, hret]; exact ⟨nofun, nofun⟩⟩
      · exact ⟨hfl ▸ he, hread, hacc, (hok rfl hpc hn).2⟩

end Step

end DecryptRun

end Threefizer
