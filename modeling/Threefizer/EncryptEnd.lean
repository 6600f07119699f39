/-
# How encryption ends

What holds of the encrypting threads whether or not an error stops them.
* The end markers: each thread puts out `DONE` as the last thing it does, and
  passes its loop only on `DONE` or when the threads are disturbed. So a writer
  that is past its loop with no error is the last thread that runs (`calm`).
* The supply: the chunks on the queues, in the hands of the threads and still
  to be read are never more than those of the file, the header and the tag.
-/
import Threefizer.EncryptRun

namespace Threefizer

open Words Queue

namespace EncryptRun

variable {J : Job}

/-- Something stops the threads. -/
def Disturbed (s : State J) : Prop := s.fl.running = false ∨ s.fl.error ≠ none

/-- The chunks that are on their way, `ds` being those still owed by the reader. -/
def supply (s : State J) (ds : List Chunk) : ℕ :=
  s.write_queue.data + GenerateThread.load s.mac + s.mac_queue.data + EncryptThread.load s.crypt +
    s.crypto_queue.data + ds.length

/-- What holds in every state of every run. -/
structure Order (s : State J) : Prop where
  supplied : ∃ ds, (reader J).Owes s.read ds ∧ (∀ d ∈ ds, d.action ≠ .DONE ∧ Countable J.state_size d) ∧
    supply s ds ≤ pieceCount J.file.length J.max_chunk + 2
  countable : ∀ c ∈ s.crypto_queue.elements, Countable J.state_size c
  marked : ∀ c ∈ s.mac_queue.elements, c.action = .GEN_MAC ∨ c.action = .DONE
  carryCrypt : EncryptThread.Carrying s.crypt
  carryMac : GenerateThread.Carrying s.mac
  opens : s.crypto_queue.Open J.que_size ∧ s.mac_queue.Open J.que_size ∧ s.write_queue.Open J.que_size
  readDone : s.crypto_queue.HasDone → s.read.pc = .returned
  cryptDone : s.mac_queue.HasDone → s.crypt.pc = .returned
  macDone : s.write_queue.HasDone → s.mac.pc = .returned
  writeDone : ∀ c, s.write.write_chunk = some c → c.action = .DONE → s.mac.pc = .returned
  cryptEnds : EncryptThread.Ends s.crypt → s.read.pc = .returned ∨ Disturbed s
  macEnds : GenerateThread.Ends s.mac → s.crypt.pc = .returned
  notSized : s.fl.valid = false ∧ s.write.pc ≠ .testSize
  calm : WriteThread.Past s.write s.fl →
    s.read.pc = .returned ∧ s.crypt.pc = .returned ∧ s.mac.pc = .returned ∧ s.fl.error = none

/-- A run starts only with an initialization vector and a file of two bytes. -/
theorem start_some {fs : FileSystem} {s₀ : State J} (h : start J fs = some s₀) :
    (∃ iv, J.args.iv = some iv) ∧ 2 ≤ J.file.length := by
  unfold start queueHeader at h
  split at h
  next q hq =>
    split at hq
    · cases hq
    next hiv =>
      obtain ⟨iv, hiv⟩ := Option.ne_none_iff_exists'.mp hiv
      refine ⟨⟨iv, hiv⟩, ?_⟩
      by_contra hsize
      have hdata : (headerChunk J.args).data = [] := by
        simp only [headerChunk, hiv, genHeader, J.file_size_eq]
        rw [if_neg (by omega)]
        rfl
      rw [if_pos hdata] at hq
      cases hq
  next => cases h

/-- At the start there is the header, what the reader is to read and the tag. -/
theorem supply_init {q : Queue} (hel : q.elements = [headerChunk J.args]) (fs : FileSystem) :
    supply (State.init J q fs) (encryptPlan J.file J.state_size J.max_chunk) ≤
      pieceCount J.file.length J.max_chunk + 2 := by
  have hq : q.data = 1 := by rw [Queue.data, hel]; rfl
  have hplan : (encryptPlan J.file J.state_size J.max_chunk).length = pieceCount J.file.length J.max_chunk := by
    simp [encryptPlan]
  show 0 + (0 + 1) + 0 + 0 + q.data + _ ≤ _
  omega

theorem start_order {fs : FileSystem} {s₀ : State J} (hlen : ∀ iv, J.args.iv = some iv → iv.length = J.state_size.words)
    (hcap : 0 < J.que_size) (h : start J fs = some s₀) : Order s₀ := by
  obtain ⟨⟨iv, hiv⟩, hsize⟩ := start_some h
  obtain ⟨q, hq, hqc, hql, hel⟩ := queueHeader_eq hiv (hlen iv hiv) hsize hcap
  obtain rfl : State.init J q fs = s₀ := by
    rw [start, hq] at h
    exact Option.some.inj h
  have hB := J.tf_key.stateSize.bytes_cases
  exact
    { supplied := ⟨encryptPlan J.file J.state_size J.max_chunk,
        ⟨_, encryptReader_reads J.max_chunk_pos (J.reads _), rfl⟩,
        fun d hd => encryptPlan_countable J.max_chunk_pos J.max_chunk_fits hd, supply_init hel fs⟩
      countable := fun c hc => by
        rw [State.init, hel] at hc
        rw [List.mem_singleton.mp hc]
        refine countable_of_le ?_
        show 2 * J.args.state_size.bytes + J.tf_key.stateSize.bytes ≤ 2 ^ 32
        rw [J.state_size_eq]
        omega
      marked := fun c hc => absurd hc List.not_mem_nil
      carryCrypt := by rintro c ⟨⟩
      carryMac := ⟨by rintro ⟨⟩, (by rintro (h | h) <;> cases h), by rintro c ⟨⟩⟩
      opens := ⟨⟨hqc, hql⟩, ⟨rfl, rfl⟩, ⟨rfl, rfl⟩⟩
      readDone := by
        rintro ⟨c, hc, hd⟩
        rw [State.init, hel] at hc
        rw [List.mem_singleton.mp hc] at hd
        cases hd
      cryptDone := by rintro ⟨c, hc, -⟩; cases hc
      macDone := by rintro ⟨c, hc, -⟩; cases hc
      writeDone := by rintro c ⟨⟩
      cryptEnds := by rintro (h | h | h) <;> cases h
      macEnds := fun h => h.elim
      notSized := ⟨rfl, by rintro ⟨⟩⟩
      calm := fun h => h.elim }

section Step

variable {image : List Byte} {s s' : State J} {t : Thread}

theorem Disturbed.step (h : Moves s t s') (hd : Disturbed s) : Disturbed s' := by
  rcases hd with hr | he
  · refine Or.inl ?_
    by_contra hr'
    exact absurd (hr.symm.trans (h.later.1 (by simpa using hr'))) (by decide)
  · exact Or.inr fun he' => he (h.later.2 he')

theorem Order.step (h : Moves s t s') (hI : Inv image s) (hO : Order s) : Order s' := by
  have hdist : Disturbed s → Disturbed s' := Disturbed.step h
  have hlater := h.later
  obtain ⟨ds, howes, hds, hle⟩ := hO.supplied
  cases h with
  | @read l fl out h =>
    have hnot := h.not_returned
    obtain ⟨hv, -⟩ := Flags.size_of_error h.flags
    obtain ⟨ds', howes', hsuf, hdata, hdone, hmem⟩ := h.owes howes fun d hd => (hds d hd).1
    exact { hO with
      supplied := ⟨ds', howes', fun d hd => hds d (hsuf.subset hd), by
        simp only [supply] at hle ⊢
        omega⟩
      countable := fun c hc => by
        rcases hmem c hc with hc | hc | rfl
        · exact hO.countable c hc
        · exact (hds c hc).2
        · exact countable_doneChunk _
      opens := ⟨h.opens hI.readReady hO.opens.1, hO.opens.2⟩
      readDone := fun hd => (hdone hd).resolve_left fun h => hnot (hO.readDone h)
      cryptEnds := fun he => (hO.cryptEnds he).elim (fun h => absurd h hnot) fun h => Or.inr (hdist h)
      notSized := ⟨hv.trans hO.notSized.1, hO.notSized.2⟩
      calm := fun hp => absurd (hO.calm (hp.mono hlater.2)).1 hnot }
  | @crypt l fl inq out h =>
    have hnot := h.not_returned
    obtain ⟨hv, -⟩ := Flags.size_of_error h.flags
    have hload := h.load
    exact { hO with
      supplied := ⟨ds, howes, hds, by
        simp only [supply] at hle ⊢
        omega⟩
      countable := fun c hc => hO.countable c (mem_of_takes h.takes hc)
      marked := fun c hc => (h.marks hO.carryCrypt c hc).elim (hO.marked c) id
      carryCrypt := h.carrying hO.carryCrypt
      opens := ⟨hO.opens.1.of_takes h.takes, h.opens hI.cryptReady hO.opens.2.1, hO.opens.2.2⟩
      readDone := fun hd => hO.readDone (hd.of_takes h.takes)
      cryptDone := fun hd => (h.done_last hO.carryCrypt hd).resolve_left fun h => hnot (hO.cryptDone h)
      cryptEnds := fun he => by
        rcases h.ends hO.carryCrypt he with he | hd | hr | herr
        · exact (hO.cryptEnds he).imp id hdist
        · exact Or.inl (hO.readDone hd)
        · exact Or.inr (hdist (Or.inl hr))
        · exact Or.inr (Or.inr herr)
      macEnds := fun he => absurd (hO.macEnds he) hnot
      notSized := ⟨hv.trans hO.notSized.1, hO.notSized.2⟩
      calm := fun hp => absurd (hO.calm (hp.mono hlater.2)).2.1 hnot }
  | @mac l fl inq out h =>
    have hnot := h.not_returned
    obtain ⟨hv, -⟩ := Flags.size_of_error h.flags
    have hload := h.load
    exact { hO with
      supplied := ⟨ds, howes, hds, by
        simp only [supply] at hle ⊢
        omega⟩
      marked := fun c hc => hO.marked c (mem_of_takes h.takes hc)
      carryMac := h.carrying (out_action_ne_done J) hO.carryMac
      opens := ⟨hO.opens.1, hO.opens.2.1.of_takes h.takes, h.opens hI.macReady hO.opens.2.2⟩
      cryptDone := fun hd => hO.cryptDone (hd.of_takes h.takes)
      macDone := fun hd => (h.done_last hO.carryMac hd).resolve_left fun h => hnot (hO.macDone h)
      writeDone := fun c hc hd => absurd (hO.writeDone c hc hd) hnot
      cryptEnds := fun he => (hO.cryptEnds he).imp id hdist
      macEnds := fun he => (h.ends he).elim hO.macEnds hO.cryptDone
      notSized := ⟨hv.trans hO.notSized.1, hO.notSized.2⟩
      calm := fun hp => absurd (hO.calm (hp.mono hlater.2)).2.2.1 hnot }
  | @write l fl inq fs h =>
    have hrun := hI.runs h.not_returned
    obtain ⟨hv, -⟩ := h.keeps_size
    have hdeq : inq.data ≤ s.write_queue.data := data_of_takes h.takes
    have hchunk : ∀ c, l.write_chunk = some c → c.action = .DONE → s.mac.pc = .returned := fun c hc hd =>
      (h.takes_chunk hc).elim (fun hc => hO.writeDone c hc hd) fun hc => hO.macDone ⟨c, hc, hd⟩
    exact { hO with
      supplied := ⟨ds, howes, hds, by
        simp only [supply] at hle ⊢
        omega⟩
      opens := ⟨hO.opens.1, hO.opens.2.1, hO.opens.2.2.of_takes h.takes⟩
      macDone := fun hd => hO.macDone (hd.of_takes h.takes)
      writeDone := hchunk
      cryptEnds := fun he => (hO.cryptEnds he).imp id hdist
      notSized := ⟨hv.trans hO.notSized.1, fun hp => by
        have := h.sized hp
        rw [hv, hO.notSized.1] at this
        cases this⟩
      calm := fun hp => by
        rcases h.past hrun hp with ⟨hp', -⟩ | ⟨hfl, he, -, ⟨c, hc, hd⟩ | ⟨hpc, -⟩⟩
        · obtain ⟨h1, h2, h3, h4⟩ := hO.calm hp'
          exact ⟨h1, h2, h3, (h.keeps_error hp'.not_failing).trans h4⟩
        · -- the last to hold `DONE` is the writer
          have hm := hchunk c hc hd
          have hc := hO.macEnds (by unfold GenerateThread.Ends; rw [hm]; trivial)
          refine ⟨(hO.cryptEnds (Or.inr (Or.inr hc))).resolve_right ?_, hc, hm, hfl ▸ he⟩
          rintro (hr | he')
          · exact absurd (hrun.symm.trans hr) (by decide)
          · exact he' he
        · exact absurd hpc hO.notSized.2 }

/-- In every run. -/
theorem reachable_order {s₀ : State J} (h0 : Inv image s₀) (hO : Order s₀) (h : Lts.Reachable step s₀ s) : Order s :=
  h.invariant' (fun _ hs => reachable_inv h0 hs.reachable) hO fun _ _ _ hI hO _ hs => hO.step (moves_of_step hs) hI

end Step

end EncryptRun

end Threefizer
