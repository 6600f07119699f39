/-
# The end after an error

After an error the threads return, unless a queue is full that nobody empties
any more: a thread that waits for room looks at no flag, and neither does the
loop of `generateMAC`. `Fits` says of the state in which the error is set that
the queues have room for what the threads still put out. Then every thread that
has not returned finds the room it needs (`room`), some step brings the threads
nearer to their end (`approach`), and so they all return (`error_never_stuck`).

In encryption the threads also wait for ever if `encryptQueue` cannot allocate,
since it then puts out no `DONE` (`starved_stays`), or if `generateMAC` takes
`DONE` out in its loop.
-/
import Threefizer.DecryptEnd
import Threefizer.EncryptEnd

namespace Threefizer

open Words Queue

namespace EncryptRun

variable {J : Job}

/-! ### Encryption -/

variable (J) in
/-- All the chunks of the file fit into a queue. -/
def Small : Prop := pieceCount J.file.length J.max_chunk + 3 ≤ J.que_size

/-- The queues have room for what is still put out after an error: for the chunk
the reader waits with, and for all that is on its way to the write queue. -/
def Fits (s : State J) : Prop :=
  (s.read.pc ≠ .returned → s.crypto_queue.data + Reader.late s.read < J.que_size) ∧
    (s.mac.pc ≠ .returned →
      s.write_queue.data + GenerateThread.load s.mac + s.mac_queue.data + EncryptThread.late s.crypt < J.que_size)

/-- The thread is about to set the error word. -/
def Fails (s : State J) : Thread → Prop
  | .read => (s.read.pc matches .fail _)
  | .crypt => (s.crypt.pc matches .fail _ | .headerFail)
  | .mac => (s.mac.pc matches .fail _)
  | .write => (s.write.pc matches .fail _ | .writeFail)

/-- What keeps the threads from being stuck: the allocation does not fail, `DONE`
is not put on the empty queue between the two looks of `generateMAC`, and the
queues have room when the error is set. -/
def Unstuck (s : State J) (a : Thread × Outcome) : Prop :=
  (a.1 = .crypt → s.crypt.pc = .alloc → a.2 = .success) ∧
    (a.1 = .crypt → s.crypt.pc = .queueDone → s.mac.pc = .guard3 → s.mac_queue.front ≠ none) ∧
    (s.fl.error = none → Fails s a.1 → Small J ∨ Fits s)

instance (s : State J) (a : Thread × Outcome) : Decidable (Unstuck s a) := by
  have : Decidable (Fails s a.1) := by unfold Fails; split <;> infer_instance
  unfold Unstuck Small Fits
  infer_instance

/-- A thread waits, without a look at any flag, for room or for a chunk, and the
thread that would have to see to it has returned. -/
def Stranded (s : State J) : Prop :=
  ((s.read.pc = .queueIsFull ∨ s.read.pc = .doneIsFull) ∧ s.crypto_queue.queueIsFull = true ∧
      s.crypt.pc = .returned) ∨
    (s.crypt.pc = .doneIsFull ∧ s.mac_queue.queueIsFull = true ∧ s.mac.pc = .returned) ∨
    ((s.mac.pc = .spin ∨ s.mac.pc = .spinMac ∨ s.mac.pc = .doneIsFull) ∧ s.write_queue.queueIsFull = true ∧
      s.write.pc = .returned) ∨
    ((s.mac.pc = .guard1 ∨ s.mac.pc = .guard3) ∧ s.mac_queue.elements = [] ∧ s.crypt.pc = .returned)

/-- What holds in every state of a run that gets stuck nowhere. -/
structure Waits (s : State J) : Prop where
  wary : GenerateThread.Wary s.mac s.mac_queue
  steady : GenerateThread.Steady s.mac
  started : ∀ code, s.crypt.pc ≠ .fail code
  doneKept : s.crypt.pc = .returned → s.mac_queue.HasDone
  holding : WriteThread.Holding s.write
  fits : s.fl.error ≠ none → Small J ∨ Fits s

theorem start_waits {fs : FileSystem} {s₀ : State J} (h : start J fs = some s₀) : Waits s₀ := by
  unfold start at h
  split at h <;> cases h
  exact
    { wary := GenerateThread.wary_of_ne nofun nofun
      steady := rfl
      started := nofun
      doneKept := nofun
      holding := by rintro (h | h) <;> cases h
      fits := absurd rfl }

section Step

variable {image : List Byte} {s s' : State J} {a : Thread × Outcome} {t : Thread}

theorem Fits.step (h : Moves s t s') (herr : s'.fl.error ≠ none) (hF : Fits s) : Fits s' := by
  obtain ⟨hread, hmac⟩ := hF
  cases h with
  | read h => exact ⟨fun _ => lt_of_le_of_lt (h.late herr) (hread h.not_returned), hmac⟩
  | @crypt l fl inq out h =>
    have hdeq : inq.data ≤ s.crypto_queue.data := data_of_takes h.takes
    have hlate := h.late herr
    exact ⟨fun hp => lt_of_le_of_lt (Nat.add_le_add_right hdeq _) (hread hp), fun hp => by
      have := hmac hp
      simp only at hp ⊢
      omega⟩
  | mac h =>
    have hload := h.load
    exact ⟨hread, fun _ => by
      have := hmac h.not_returned
      simp only
      omega⟩
  | @write l fl inq fs h =>
    have hdeq : inq.data ≤ s.write_queue.data := data_of_takes h.takes
    exact ⟨hread, fun hp => by
      have := hmac hp
      simp only
      omega⟩

/-- Only a thread that is about to set it sets the error word. -/
theorem Moves.fails (h : Moves s t s') (hI : Inv image s) (hS : GenerateThread.Steady s.mac)
    (herr : s.fl.error = none) (herr' : s'.fl.error ≠ none) : Fails s t := by
  by_contra hf
  refine herr' ?_
  cases h with
  | read h => exact (h.keeps_error fun code hp => hf (by simp [Fails, hp])).trans herr
  | crypt h =>
    exact (h.keeps_error (fun code hp => hf (by simp [Fails, hp])) fun hp => hf (by simp [Fails, hp])).trans herr
  | mac h => exact (h.keeps_error hI.macReady hS fun code hp => hf (by simp [Fails, hp])).trans herr
  | write h =>
    refine (h.keeps_error ?_).trans herr
    rintro (⟨code, hp⟩ | hp) <;> exact hf (by simp [Fails, hp])

theorem Waits.step (hstep : EncryptRun.step s a = some s') (hok : Unstuck s a) (hI : Inv image s) (hO : Order s)
    (hW : Waits s) : Waits s' := by
  have h := moves_of_step hstep
  have hfits : s'.fl.error ≠ none → Small J ∨ Fits s' := fun herr' => by
    refine Or.imp_right (Fits.step h herr') ?_
    by_cases herr : s.fl.error = none
    · exact hok.2.2 herr (h.fails hI hW.steady herr herr')
    · exact hW.fits herr
  obtain ⟨t, o⟩ := a
  cases t <;> obtain ⟨⟨_, _⟩, hx, rfl⟩ := Option.map_eq_some_iff.mp hstep
  case read => exact { hW with fits := hfits }
  case crypt =>
    have hm := EncryptThread.moves_of_step hx
    exact
      { wary := by
          rcases hm.puts hI.cryptReady hO.carryCrypt with h' | ⟨c, hq, hd⟩
          · have := hW.wary
            rwa [← h'] at this
          · exact hW.wary.enque hq fun hc => hok.2.1 rfl (hd hc)
        steady := hW.steady
        started := fun code hp => by
          obtain ⟨halloc, ho⟩ := EncryptThread.step_fail hx hI.cryptReady hp
          exact ho (hok.1 rfl halloc)
        doneKept := hm.returns hW.started
        holding := hW.holding
        fits := hfits }
  case mac =>
    have hm := GenerateThread.moves_of_step hx
    obtain ⟨hwary, hkeep⟩ := hm.wary hW.wary
    exact
      { wary := hwary
        steady := hm.steady hI.macReady hW.wary hO.marked hW.steady
        started := hW.started
        doneKept := fun hp => hkeep (hW.doneKept hp)
        holding := hW.holding
        fits := hfits }
  case write => exact { hW with holding := (WriteThread.moves_of_step hx).holding, fits := hfits }

end Step

/-! ### Progress -/

section Progress

variable {image : List Byte} {s : State J}

/-- After an error a thread that looks at no flag finds room. -/
theorem room (hO : Order s) (hW : Waits s) (herr : s.fl.error ≠ none) :
    (s.read.pc ≠ .returned → s.crypto_queue.HasRoom) ∧ (s.mac.pc ≠ .returned → s.write_queue.HasRoom) := by
  obtain ⟨⟨hc, -⟩, -, hw, -⟩ := hO.opens
  have hle : (s.read.pc ≠ .returned → s.crypto_queue.data < J.que_size) ∧
      (s.mac.pc ≠ .returned → s.write_queue.data < J.que_size) := by
    rcases hW.fits herr with hS | ⟨hread, hmac⟩
    · obtain ⟨ds, -, -, hle⟩ := hO.supplied
      unfold Small at hS
      unfold supply at hle
      exact ⟨fun _ => by omega, fun _ => by omega⟩
    · exact ⟨fun hp => lt_of_le_of_lt (Nat.le_add_right _ _) (hread hp), fun hp => by have := hmac hp; omega⟩
  exact ⟨fun hp => hasRoom_of_data (fun hd => hp (hO.readDone hd)) (hc ▸ hle.1 hp),
    fun hp => hasRoom_of_data (fun hd => hp (hO.macDone hd)) (hw ▸ hle.2 hp)⟩

/-- How far the threads are from their end; a chunk put out by `encryptQueue`
gives `generateMAC` six steps more. -/
def distance (s : State J) : ℕ :=
  Reader.rank s.read + WriteThread.rank s.write + 7 * EncryptThread.rank s.crypt +
    GenerateThread.rank s.mac s.mac_queue

/-- `generateMAC` takes a step if its queue is not empty, or if it has just seen
that it is. -/
theorem mac_approach (hO : Order s) (hW : Waits s) (hroom : s.write_queue.HasRoom)
    (hp : s.mac.pc ≠ .returned) (hq : s.mac_queue.elements ≠ [] ∨ s.mac.pc = .guard3) :
    ∃ s', step s (.mac, .success) = some s' ∧ distance s' < distance s := by
  obtain ⟨-, ⟨-, hml⟩, -, hwl⟩ := hO.opens
  have hmac : ∃ l fl inq out, GenerateThread.step J.mac_context s.mac s.fl s.mac_queue s.write_queue =
      some (l, fl, inq, out) ∧ GenerateThread.rank l inq < GenerateThread.rank s.mac s.mac_queue := by
    by_cases hne : s.mac_queue.elements = []
    · have hfront : s.mac_queue.front = none := by rw [Queue.front, hne]; rfl
      obtain ⟨l, hs, hlt⟩ := GenerateThread.progress_empty (hq.resolve_left (not_not.mpr hne)) hfront
      exact ⟨l, _, _, _, hs, hlt⟩
    · exact GenerateThread.progress hroom hml hwl hne hW.wary hW.steady hO.marked hp
  obtain ⟨l, fl, inq, out, hs, hlt⟩ := hmac
  refine ⟨_, by simp only [step, hs]; rfl, ?_⟩
  simp only [distance]
  omega

/-- `encryptQueue` takes a step if its queue has room. -/
theorem crypt_approach (hI : Inv image s) (hO : Order s) (herr : s.fl.error ≠ none) (hroom : s.mac_queue.HasRoom)
    (hp : s.crypt.pc ≠ .returned) :
    ∃ s', step s (.crypt, .success) = some s' ∧ distance s' < distance s := by
  obtain ⟨⟨-, hcl⟩, ⟨-, hml⟩, -⟩ := hO.opens
  obtain ⟨l, fl, inq, out, hs, hlt⟩ := EncryptThread.progress J.tf herr hroom hcl hml hO.countable hp
  refine ⟨_, by simp only [step, hs]; rfl, ?_⟩
  have hrank : GenerateThread.rank s.mac out ≤ GenerateThread.rank s.mac s.mac_queue + 6 := by
    rcases (EncryptThread.moves_of_step hs).puts hI.cryptReady hO.carryCrypt with h | ⟨c, hq, -⟩
    · rw [h]; omega
    · exact GenerateThread.rank_enque hq
  simp only [distance]
  omega

theorem unstuck_of_ne (t : Thread) (ht : t ≠ .crypt) {o : Outcome} (herr : s.fl.error ≠ none) : Unstuck s (t, o) :=
  ⟨fun h => absurd h ht, fun h => absurd h ht, fun h => absurd h herr⟩

/-- After an error some thread comes nearer to its end, and gets no other stuck. -/
theorem approach (hI : Inv image s) (hO : Order s) (hW : Waits s) (herr : s.fl.error ≠ none)
    (hret : ¬ Returned s) : ∃ a s', Unstuck s a ∧ step s a = some s' ∧ distance s' < distance s := by
  obtain ⟨hcroom, hwroom⟩ := room hO hW herr
  obtain ⟨⟨-, hcl⟩, -, -, hwl⟩ := hO.opens
  by_cases hr : s.read.pc = .returned
  case neg =>
    obtain ⟨l, fl, out, hs, hlt⟩ := Reader.progress (reader J) herr (hcroom hr) hcl hr
    refine ⟨(.read, .success), _, unstuck_of_ne .read (by decide) herr, by simp only [step, hs]; rfl, ?_⟩
    simp only [distance]
    omega
  by_cases hw : s.write.pc = .returned
  case neg =>
    obtain ⟨l, fl, inq, fs, hs, hlt⟩ := WriteThread.progress (writeParams J) s.fs herr hwl hW.holding hw
    refine ⟨(.write, .success), _, unstuck_of_ne .write (by decide) herr, by simp only [step, hs]; rfl, ?_⟩
    simp only [distance]
    omega
  by_cases hc : s.crypt.pc = .returned
  · -- `encryptQueue` has returned, so `DONE` is there for `generateMAC`
    have hm : s.mac.pc ≠ .returned := fun hm => hret ⟨hr, hc, hm, hw⟩
    obtain ⟨d, hd, -⟩ := hW.doneKept hc
    obtain ⟨s', hs, hlt⟩ := mac_approach hO hW (hwroom hm) hm (Or.inl (List.ne_nil_of_mem hd))
    exact ⟨_, s', unstuck_of_ne .mac (by decide) herr, hs, hlt⟩
  · have hm : s.mac.pc ≠ .returned := fun hm => hc (hO.macEnds (by unfold GenerateThread.Ends; rw [hm]; trivial))
    by_cases hroom : s.mac_queue.HasRoom
    · by_cases hb : s.crypt.pc = .queueDone → s.mac.pc = .guard3 → s.mac_queue.front ≠ none
      · obtain ⟨s', hs, hlt⟩ := crypt_approach hI hO herr hroom hc
        exact ⟨_, s', ⟨fun _ _ => rfl, fun _ => hb, fun h => absurd h herr⟩, hs, hlt⟩
      · -- `generateMAC` goes first, past its second look
        have hg : s.mac.pc = .guard3 := by by_contra hg; exact hb fun _ h => absurd h hg
        obtain ⟨s', hs, hlt⟩ := mac_approach hO hW (hwroom hm) hm (Or.inr hg)
        exact ⟨_, s', unstuck_of_ne .mac (by decide) herr, hs, hlt⟩
    · -- `generateMAC` makes room
      have hne : s.mac_queue.elements ≠ [] := by
        intro h0
        refine hroom ?_
        unfold HasRoom
        rw [h0]
        exact hI.room
      obtain ⟨s', hs, hlt⟩ := mac_approach hO hW (hwroom hm) hm (Or.inl hne)
      exact ⟨_, s', unstuck_of_ne .mac (by decide) herr, hs, hlt⟩

theorem not_stranded (hO : Order s) (hW : Waits s) (herr : s.fl.error ≠ none) : ¬ Stranded s := by
  obtain ⟨hcroom, hwroom⟩ := room hO hW herr
  rintro (⟨hp, hf, -⟩ | ⟨hp, -, hm⟩ | ⟨hp, hf, -⟩ | ⟨-, hq, hc⟩)
  · refine not_hasRoom_of_full hf (hcroom ?_)
    rcases hp with hp | hp <;> rw [hp] <;> nofun
  · have := hO.macEnds (by unfold GenerateThread.Ends; rw [hm]; trivial)
    rw [hp] at this
    cases this
  · refine not_hasRoom_of_full hf (hwroom ?_)
    rcases hp with hp | hp | hp <;> rw [hp] <;> nofun
  · obtain ⟨d, hd, -⟩ := hW.doneKept hc
    rw [hq] at hd
    cases hd

/-- After an error all threads can return. -/
theorem returns {fs : FileSystem} {s₀ : State J} (hlen : ∀ iv, J.args.iv = some iv → iv.length = J.state_size.words)
    (hcap : 0 < J.que_size) (h0 : start J fs = some s₀) (hs : Lts.Reach step Unstuck s₀ s)
    (herr : s.fl.error ≠ none) :
    (∃ s', Lts.Reachable step s s' ∧ Returned s') ∧ ¬ Stranded s := by
  obtain ⟨⟨iv, hiv⟩, hsize⟩ := start_some h0
  obtain ⟨s₁, hs₁, hI0⟩ := start_inv hiv (hlen iv hiv) hsize hcap fs
  cases h0.symm.trans hs₁
  have hO0 := start_order hlen hcap h0
  have hI := reachable_inv hI0 hs.reachable
  have hO := reachable_order hI0 hO0 hs.reachable
  have hW : Waits s := hs.invariant' (J := fun s => Inv (J.image iv) s ∧ Order s)
    (fun s hs => ⟨reachable_inv hI0 hs.reachable, reachable_order hI0 hO0 hs.reachable⟩) (start_waits h0)
    fun _ _ _ ⟨hI, hO⟩ hW hok hstep => hW.step hstep hok hI hO
  have hend : ∃ s', Lts.Reach step Unstuck s s' ∧
      (Inv (J.image iv) s' ∧ Order s' ∧ Waits s' ∧ s'.fl.error ≠ none) ∧ Returned s' := by
    refine Lts.leads distance (fun s ⟨hI, hO, hW, herr⟩ hret => ?_) (distance s) s le_rfl ⟨hI, hO, hW, herr⟩
    obtain ⟨a, s', hok, hstep, hlt⟩ := approach hI hO hW herr hret
    have h := moves_of_step hstep
    exact ⟨a, s', hok, hstep,
      ⟨hI.step h, hO.step h hI, hW.step hstep hok hI hO, fun herr' => herr (h.later.2 herr')⟩, hlt⟩
  obtain ⟨s', hs', -, hret⟩ := hend
  exact ⟨⟨s', hs'.reachable, hret⟩, not_stranded hO hW herr⟩

end Progress

end EncryptRun

namespace DecryptRun

variable {J : Job}

/-! ### Decryption -/

variable (J) in
/-- All the chunks of the file fit into a queue. -/
def Small : Prop := pieceCount (dataPart J.file J.state_size).length J.max_chunk + 3 ≤ J.que_size

/-- The queues have room for what is still put out after an error. -/
def Fits (s : State J) : Prop :=
  (s.read.pc ≠ .returned → s.mac_queue.data + Reader.late s.read < J.que_size) ∧
    (AuthThread.Bound s.mac → s.crypto_queue.HasRoom) ∧
    (s.crypt.pc ≠ .returned → s.write_queue.data + DecryptThread.late s.crypt < J.que_size)

/-- The thread is about to set the error word. -/
def Fails (s : State J) : Thread → Prop
  | .read => (s.read.pc matches .fail _)
  | .mac => (s.mac.pc matches .fail _)
  | .crypt => (s.crypt.pc matches .fail _)
  | .write => (s.write.pc matches .fail _ | .writeFail)

/-- The queues have room when the error is set. -/
def Unstuck (s : State J) (a : Thread × Outcome) : Prop :=
  s.fl.error = none → Fails s a.1 → Small J ∨ Fits s

instance (s : State J) (a : Thread × Outcome) : Decidable (Unstuck s a) := by
  have : Decidable (Fails s a.1) := by unfold Fails; split <;> infer_instance
  have : Decidable s.crypto_queue.HasRoom := inferInstanceAs (Decidable (_ < _))
  unfold Unstuck Small Fits
  infer_instance

/-- A thread waits for room, and the thread that would have to make it has returned. -/
def Stranded (s : State J) : Prop :=
  ((s.read.pc = .queueIsFull ∨ s.read.pc = .doneIsFull) ∧ s.mac_queue.queueIsFull = true ∧
      s.mac.pc = .returned) ∨
    ((s.mac.pc = .spin ∨ s.mac.pc = .doneIsFull) ∧ s.crypto_queue.queueIsFull = true ∧ s.crypt.pc = .returned) ∨
    (s.crypt.pc = .doneIsFull ∧ s.write_queue.queueIsFull = true ∧ s.write.pc = .returned)

/-- What holds in every state of a run that gets stuck nowhere. -/
structure Waits (s : State J) : Prop where
  holding : WriteThread.Holding s.write
  fits : s.fl.error ≠ none → Small J ∨ Fits s

theorem start_waits (fs : FileSystem) : Waits (start J fs) where
  holding := by rintro (h | h) <;> cases h
  fits := absurd rfl

section Step

variable {s s' : State J} {a : Thread × Outcome} {t : Thread}

theorem Fits.step (h : Moves s t s') (herr : s'.fl.error ≠ none) (hF : Fits s) : Fits s' := by
  obtain ⟨hread, hmac, hcrypt⟩ := hF
  cases h with
  | read h => exact ⟨fun _ => lt_of_le_of_lt (h.late herr) (hread h.not_returned), hmac, hcrypt⟩
  | @mac l fl inq out h =>
    have hdeq : inq.data ≤ s.mac_queue.data := data_of_takes h.takes
    exact ⟨fun hp => lt_of_le_of_lt (Nat.add_le_add_right hdeq _) (hread hp), h.bound herr hmac, hcrypt⟩
  | @crypt l fl inq out h =>
    exact ⟨hread, fun hb => (hmac hb).of_takes h.takes, fun _ => lt_of_le_of_lt (h.late herr) (hcrypt h.not_returned)⟩
  | @write l fl inq fs h =>
    have hdeq : inq.data ≤ s.write_queue.data := data_of_takes h.takes
    exact ⟨hread, hmac, fun hp => lt_of_le_of_lt (Nat.add_le_add_right hdeq _) (hcrypt hp)⟩

/-- Only a thread that is about to set it sets the error word. -/
theorem Moves.fails (h : Moves s t s') (herr : s.fl.error = none) (herr' : s'.fl.error ≠ none) : Fails s t := by
  by_contra hf
  refine herr' ?_
  cases h with
  | read h => exact (h.keeps_error fun code hp => hf (by simp [Fails, hp])).trans herr
  | mac h => exact (h.keeps_error fun code hp => hf (by simp [Fails, hp])).trans herr
  | crypt h => exact (h.keeps_error fun code hp => hf (by simp [Fails, hp])).trans herr
  | write h =>
    refine (h.keeps_error ?_).trans herr
    rintro (⟨code, hp⟩ | hp) <;> exact hf (by simp [Fails, hp])

theorem Waits.step (hstep : DecryptRun.step s a = some s') (hok : Unstuck s a) (hW : Waits s) : Waits s' := by
  have h := moves_of_step hstep
  obtain ⟨t, o⟩ := a
  refine ⟨?_, fun herr' => Or.imp_right (Fits.step h herr') ?_⟩
  · cases h with
    | write h => exact h.holding
    | _ => exact hW.holding
  · by_cases herr : s.fl.error = none
    · exact hok herr (h.fails herr herr')
    · exact hW.fits herr

end Step

section Progress

variable {s : State J}

/-- After an error a thread that looks at no flag finds room. -/
theorem room (hO : Order s) (hW : Waits s) (herr : s.fl.error ≠ none) :
    (s.read.pc ≠ .returned → s.mac_queue.HasRoom) ∧ (AuthThread.Bound s.mac → s.crypto_queue.HasRoom) ∧
      (s.crypt.pc ≠ .returned → s.write_queue.HasRoom) := by
  obtain ⟨⟨hm, -⟩, ⟨hc, -⟩, hw, -⟩ := hO.opens
  have hread : ∀ {n}, n < J.que_size → s.mac_queue.data ≤ n → s.read.pc ≠ .returned → s.mac_queue.HasRoom :=
    fun hn hle hp => hasRoom_of_data (fun hd => hp (hO.readDone hd)) (by omega)
  have hcrypt : ∀ {n}, n < J.que_size → s.write_queue.data ≤ n → s.crypt.pc ≠ .returned →
      s.write_queue.HasRoom :=
    fun hn hle hp => hasRoom_of_data (fun hd => hp (hO.cryptDone hd)) (by omega)
  rcases hW.fits herr with hS | ⟨h1, h2, h3⟩
  · obtain ⟨ds, -, -, hle⟩ := hO.supplied
    unfold supply at hle
    refine ⟨hread hS (by omega), fun hb => hasRoom_of_data (fun hd => ?_) ?_, hcrypt hS (by omega)⟩
    · unfold AuthThread.Bound at hb
      rw [hO.macDone hd] at hb
      exact hb
    · unfold Small at hS
      omega
  · exact ⟨fun hp => hread (h1 hp) (Nat.le_add_right _ _) hp, h2,
      fun hp => hcrypt (h3 hp) (Nat.le_add_right _ _) hp⟩

/-- How far the threads are from their end. -/
def distance (s : State J) : ℕ :=
  Reader.rank s.read + AuthThread.rank s.mac + DecryptThread.rank s.crypt + WriteThread.rank s.write

/-- After an error some thread comes nearer to its end. -/
theorem approach (hO : Order s) (hW : Waits s) (herr : s.fl.error ≠ none) (hret : ¬ Returned s) :
    ∃ a s', Unstuck s a ∧ step s a = some s' ∧ distance s' < distance s := by
  obtain ⟨hmroom, hcroom, hwroom⟩ := room hO hW herr
  obtain ⟨⟨-, hml⟩, ⟨-, hcl⟩, -, hwl⟩ := hO.opens
  have hok : ∀ a, Unstuck s a := fun _ h => absurd h herr
  by_cases hr : s.read.pc = .returned
  case neg =>
    obtain ⟨l, fl, out, hs, hlt⟩ := Reader.progress (reader J) herr (hmroom hr) hml hr
    refine ⟨(.read, .success), _, hok _, by simp only [step, hs]; rfl, ?_⟩
    simp only [distance]
    omega
  by_cases hm : s.mac.pc = .returned
  case neg =>
    obtain ⟨l, fl, inq, out, hs, hlt⟩ :=
      AuthThread.progress J.tf J.tf_key J.mac_context herr hcroom hml hcl hO.holding hm
    refine ⟨(.mac, .success), _, hok _, by simp only [step, hs]; rfl, ?_⟩
    simp only [distance]
    omega
  by_cases hc : s.crypt.pc = .returned
  case neg =>
    obtain ⟨l, fl, inq, out, hs, hlt⟩ := DecryptThread.progress J.tf herr (hwroom hc) hcl hwl hO.countable.2.2 hc
    refine ⟨(.crypt, .success), _, hok _, by simp only [step, hs]; rfl, ?_⟩
    simp only [distance]
    omega
  have hw : s.write.pc ≠ .returned := fun hw => hret ⟨hr, hm, hc, hw⟩
  obtain ⟨l, fl, inq, fs, hs, hlt⟩ := WriteThread.progress (writeParams J) s.fs herr hwl hW.holding hw
  refine ⟨(.write, .success), _, hok _, by simp only [step, hs]; rfl, ?_⟩
  simp only [distance]
  omega

theorem not_stranded (hO : Order s) (hW : Waits s) (herr : s.fl.error ≠ none) : ¬ Stranded s := by
  obtain ⟨hmroom, hcroom, hwroom⟩ := room hO hW herr
  rintro (⟨hp, hf, -⟩ | ⟨hp, hf, -⟩ | ⟨hp, hf, -⟩)
  · refine not_hasRoom_of_full hf (hmroom ?_)
    rcases hp with hp | hp <;> rw [hp] <;> nofun
  · refine not_hasRoom_of_full hf (hcroom ?_)
    unfold AuthThread.Bound
    rcases hp with hp | hp <;> rw [hp] <;> trivial
  · exact not_hasRoom_of_full hf (hwroom (by rw [hp]; nofun))

/-- After an error all threads can return. -/
theorem returns (hJ : Admissible J) {fs : FileSystem} (hs : Lts.Reach step Unstuck (start J fs) s)
    (herr : s.fl.error ≠ none) :
    (∃ s', Lts.Reachable step s s' ∧ Returned s') ∧ ¬ Stranded s := by
  have hI := reachable_inv (start_inv hJ fs) hs.reachable
  have hO := reachable_order hJ fs hs.reachable
  have hW : Waits s := hs.invariant (start_waits fs) fun _ _ _ hW hok hstep => hW.step hstep hok
  have hend : ∃ s', Lts.Reach step Unstuck s s' ∧ (Inv s' ∧ Order s' ∧ Waits s' ∧ s'.fl.error ≠ none) ∧
      Returned s' := by
    refine Lts.leads distance (fun s ⟨hI, hO, hW, herr⟩ hret => ?_) (distance s) s le_rfl ⟨hI, hO, hW, herr⟩
    obtain ⟨a, s', hok, hstep, hlt⟩ := approach hO hW herr hret
    have h := moves_of_step hstep
    exact ⟨a, s', hok, hstep,
      ⟨hI.step h, hO.step h hI, hW.step hstep hok, fun herr' => herr (h.later.2 herr')⟩, hlt⟩
  obtain ⟨s', hs', -, hret⟩ := hend
  exact ⟨⟨s', hs'.reachable, hret⟩, not_stranded hO hW herr⟩

end Progress

end DecryptRun

/-! ### Both pipelines -/

/-- An error leaves no thread stuck: from every state with an error all threads
can return, and none waits for a thread that has returned. In encryption this
holds of the runs in which `encryptQueue` can allocate and `DONE` is not put
out between the two looks of `generateMAC`, and of both pipelines if the queues
have room when the error is set. -/
theorem error_never_stuck (J : Job) (fs : FileSystem) (hcap : 0 < J.que_size) :
    ((∀ iv, J.args.iv = some iv → iv.length = J.state_size.words) → ∀ s₀ s, EncryptRun.start J fs = some s₀ →
      Lts.Reach EncryptRun.step EncryptRun.Unstuck s₀ s → s.fl.error ≠ none →
      (∃ s', Lts.Reachable EncryptRun.step s s' ∧ EncryptRun.Returned s') ∧ ¬ EncryptRun.Stranded s) ∧
    (DecryptRun.Admissible J → ∀ s, Lts.Reach DecryptRun.step DecryptRun.Unstuck (DecryptRun.start J fs) s →
      s.fl.error ≠ none →
      (∃ s', Lts.Reachable DecryptRun.step s s' ∧ DecryptRun.Returned s') ∧ ¬ DecryptRun.Stranded s) :=
  ⟨fun hlen _ _ h0 hs herr => EncryptRun.returns hlen hcap h0 hs herr,
    fun hJ _ hs herr => DecryptRun.returns hJ hs herr⟩

/-- The writer cannot open its file. -/
theorem error_never_stuck_sample :
    (∃ s₀ s, EncryptRun.start (Skein3fish.sampleJob true Skein3fish.sampleText) (fun _ => none) = some s₀ ∧
      Lts.Reach EncryptRun.step EncryptRun.Unstuck s₀ s ∧ s.fl.error = some .FILE_IO_FAIL ∧
      ∃ s', Lts.Reachable EncryptRun.step s s' ∧ EncryptRun.Returned s') ∧
    ∃ s, Lts.Reach DecryptRun.step DecryptRun.Unstuck
        (DecryptRun.start (Skein3fish.sampleJob false Skein3fish.sampleFile) fun _ => none) s ∧
      s.fl.error = some .FILE_IO_FAIL ∧ ∃ s', Lts.Reachable DecryptRun.step s s' ∧ DecryptRun.Returned s' := by
  have henc : ((EncryptRun.start (Skein3fish.sampleJob true Skein3fish.sampleText) fun _ => none).bind fun s₀ =>
      Lts.run EncryptRun.step EncryptRun.Unstuck s₀ [(.write, .failure 0), (.write, .success)]).any
        (fun s => decide (s.fl.error = some .FILE_IO_FAIL)) = true := by decide +kernel
  have hdec : (Lts.run DecryptRun.step DecryptRun.Unstuck
      (DecryptRun.start (Skein3fish.sampleJob false Skein3fish.sampleFile) fun _ => none)
      [(.write, .failure 0), (.write, .success)]).any
        (fun s => decide (s.fl.error = some .FILE_IO_FAIL)) = true := by decide +kernel
  refine ⟨?_, ?_⟩
  · obtain ⟨s, hs, hp⟩ := (Option.any_eq_true _ _).mp henc
    obtain ⟨s₀, h0, hs⟩ := Option.bind_eq_some_iff.mp hs
    have herr := of_decide_eq_true hp
    exact ⟨s₀, s, h0, Lts.Reach.of_run hs, herr, ((error_never_stuck _ _ (by decide)).1
      (fun iv h => by cases h; rfl) s₀ s h0 (Lts.Reach.of_run hs) (by rw [herr]; nofun)).1⟩
  · obtain ⟨s, hs, hp⟩ := Lts.Reach.of_run_any hdec
    have herr := of_decide_eq_true hp
    exact ⟨s, hs, herr, ((error_never_stuck _ _ (by decide)).2 DecryptRun.sample_admissible s hs
      (by rw [herr]; nofun)).1⟩

namespace EncryptRun

/-- `encryptQueue` has returned with nothing put out, and `generateMAC` waits for a chunk. -/
def Starved {J : Job} (s : State J) : Prop :=
  s.crypt.pc = .returned ∧ s.mac_queue.elements = [] ∧ (s.mac.pc = .guard1 ∨ s.mac.pc = .guard3) ∧
    s.mac.update_chunk = none

theorem starved_stays {J : Job} {s s' : State J} {t : Thread} (h : Moves s t s') (hS : Starved s) : Starved s' := by
  obtain ⟨hc, hq, hp, hn⟩ := hS
  have hfront : s.mac_queue.front = none := by rw [Queue.front, hq]; rfl
  cases h with
  | read _ => exact ⟨hc, hq, hp, hn⟩
  | crypt h => exact absurd hc h.not_returned
  | write _ => exact ⟨hc, hq, hp, hn⟩
  | mac h =>
    have henter : GenerateThread.enter J.mac_context s.mac = { s.mac with pc := .guard3 } := by
      simp [GenerateThread.enter, hn]
    cases h with
    | empty _ _ => exact ⟨hc, hq, Or.inr (by rw [henter]), by rw [henter]; exact hn⟩
    | stillEmpty _ _ => exact ⟨hc, hq, Or.inl rfl, hn⟩
    | notEmpty _ hf => cases hfront.symm.trans hf
    | available _ hf => cases hfront.symm.trans hf
    | _ hp' => rw [hp'] at hp; rcases hp with hp | hp <;> cases hp

/-- If `encryptQueue` cannot allocate, `generateMAC` waits for a chunk for ever. -/
theorem starves :
    ∃ s₀ s, start (Skein3fish.sampleJob true Skein3fish.sampleText) (fun _ => none) = some s₀ ∧
      Lts.Reachable step s₀ s ∧ s.fl.error = some .MEMORY_ALLOCATION_FAIL ∧
      ¬ ∃ s', Lts.Reachable step s s' ∧ Returned s' := by
  have hrun : ((start (Skein3fish.sampleJob true Skein3fish.sampleText) fun _ => none).bind fun s₀ =>
      Lts.run step (fun _ _ => True) s₀ [(.crypt, .failure 0), (.crypt, .success)]).any
        (fun s => decide (s.fl.error = some .MEMORY_ALLOCATION_FAIL ∧ s.crypt.pc = .returned ∧
          s.mac_queue.elements = [] ∧ s.mac.pc = .guard1 ∧ s.mac.update_chunk = none)) = true := by decide +kernel
  obtain ⟨s, hs, hp⟩ := (Option.any_eq_true _ _).mp hrun
  obtain ⟨s₀, h0, hs⟩ := Option.bind_eq_some_iff.mp hs
  obtain ⟨herr, hc, hq, hm, hn⟩ := of_decide_eq_true hp
  refine ⟨s₀, s, h0, Lts.Reach.of_run hs, herr, ?_⟩
  rintro ⟨s', hs', -, -, hret, -⟩
  have hS : Starved s' := hs'.invariant ⟨hc, hq, Or.inl hm, hn⟩ fun _ _ _ hS _ hstep =>
    starved_stays (moves_of_step hstep) hS
  rcases hS.2.2.1 with h | h <;> cases hret.symm.trans h

end EncryptRun

end Threefizer
