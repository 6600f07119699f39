/-
# Decryption under a fair scheduler

The writer of a decryption leaves at the byte count, while the others are still
on their way, and clears `running`. So there is a second phase to their run: a
thread that has not come to its end yet finds `running` cleared, and puts in its
`DONE` if there is room. What is left to do (`Course`) is followed through both.

* A file this program has encrypted is decrypted without leftovers: when the
  byte count is reached, no data is on its way any more (`Course.delivered`), so
  there is room for each `DONE`.
* Some thread always drives (`Within.driver`), so the decryption completes
  (`decryption_completes`).

The one thing the scheduler must not do is let the writer leave at the byte
count before the tag is accepted (`TagFirst`): it clears `running`, and then the
tag is rejected.
-/
import Threefizer.Stopped
import Threefizer.Lib.Rounds
import Threefizer.EncryptRounds
import Mathlib.Algebra.Order.BigOperators.Group.List

namespace Threefizer

open Words Queue

namespace DecryptRun

variable {J : Job}

/-! ### Runs in which nothing fails -/

/-- No call fails, and the writer leaves at the byte count only after the tag is accepted. -/
def Smooth (s : State J) (a : Thread × Outcome) : Prop := a.2 = .success ∧ TagFirst s a

instance (s : State J) (a : Thread × Outcome) : Decidable (Smooth s a) := inferInstanceAs (Decidable (_ ∧ _))

variable (J) in
/-- The file is one that decryption accepts, and its last block is needed for
the size in the header. -/
structure Genuine : Prop where
  admissible : Admissible J
  size : J.headerSize ≠ none
  tag : J.storedTag = J.sk.tag J.state_size J.mac_key J.authenticated
  pos : 0 < J.headerSize.getD 0
  last : J.plaintext.length < J.headerSize.getD 0 + J.state_size.bytes

theorem Genuine.size_lt (hG : Genuine J) : J.headerSize.getD 0 < 2 ^ 64 := by
  obtain ⟨n, hn⟩ := Option.ne_none_iff_exists'.mp hG.size
  rw [hn]
  exact checkHeader_lt hn

theorem length_plaintext_lt (hJ : Admissible J) : J.plaintext.length < 2 ^ 64 := by
  have h1 := blockCount_mul_lt (dataPart J.file J.state_size).length J.state_size
  have h2 := length_dataPart hJ.big
  have h3 := hJ.fits
  rw [length_plaintext hJ.big, length_padded]
  omega

/-! ### What is left to do -/

variable (J) in
/-- What is with the writer and on its way to it, `cs`, is no more than the
plaintext, and in chunks of at least a block. -/
structure Cargo (l : WriteThread.Local) (cs : List Chunk) : Prop where
  filled : ∀ c ∈ l.write_chunk.toList ++ cs, c.action ≠ .DONE → c.data ≠ [] ∧ J.state_size.bytes ≤ c.data_size
  total : l.bytes_written + ((l.write_chunk.toList ++ cs).map Chunk.data_size).sum ≤ J.plaintext.length
  size : l.bytes_written ≤ J.headerSize.getD 0
  due : WriteThread.Due (J.headerSize.getD 0) l

/-- Each thread is about to put out what it would put out alone, whether
`running` is cleared or not: when it is, nothing but `DONE` is on its way. -/
structure Course (s : State J) (x a d : List Chunk) : Prop where
  read : (reader J).Rest s.read x
  mac : AuthThread.Rest J.mac_context (checkChunk J.file J.state_size) (macChunk J.file J.state_size) (finalCtx J)
    s.mac (s.mac_queue.elements ++ x) a
  ahead : AuthThread.Ahead (macChunk J.file J.state_size) s.mac (s.mac_queue.elements ++ x)
  crypt : DecryptThread.Rest J.tf J.tf_key s.crypt (s.crypto_queue.elements ++ a) d
  write : WriteThread.Rest (some (J.headerSize.getD 0)) s.write (s.write_queue.elements ++ d) (output J)
  cryptLast : DoneLast (s.crypto_queue.elements ++ a)
  writeLast : DoneLast (s.write_queue.elements ++ d)
  strips : s.crypt.st.header = true → ∃ c ∈ d, c.action ≠ .DONE
  hand : ¬ WriteThread.Past s.write s.fl → ∀ c, s.write.write_chunk = some c → c.action ≠ .DONE
  comes : ¬ WriteThread.Past s.write s.fl → ∃ cs, s.write_queue.elements ++ d = cs ++ [doneChunk]
  cargo : Cargo J s.write (s.write_queue.elements ++ d)
  spent : DecryptThread.Spent s.crypt → ∀ c ∈ s.crypto_queue.elements ++ a, c.action = .DONE
  tail : WriteThread.Past s.write s.fl →
    (∀ c ∈ s.crypto_queue.elements ++ a, c.action = .DONE) ∧ ∀ c ∈ s.write_queue.elements ++ d, c.action = .DONE

/-- The laps that are left, and the laps that each chunk takes. -/
def toGo (s : State J) (x a d : List Chunk) : ℕ :=
  (Reader.lap s.read + 4 * x.length) + (AuthThread.lap s.mac s.mac_queue s.crypto_queue + 12 * a.length) +
    (DecryptThread.lap s.crypt s.crypto_queue s.write_queue + 8 * d.length) +
    (WriteThread.lap s.write s.write_queue + 16 * (WriteThread.waiting s.write s.write_queue + d.length))

/-- The thread drives. -/
def Drives : Thread → State J → Prop
  | .read, s => Reader.Drives s.read s.mac_queue
  | .mac, s => AuthThread.Drives s.mac s.mac_queue s.crypto_queue
  | .crypt, s => DecryptThread.Drives s.crypt s.crypto_queue s.write_queue
  | .write, s => WriteThread.Drives s.write s.write_queue

/-- The thread has returned. -/
def Ended : Thread → State J → Prop
  | .read, s => s.read.pc = .returned
  | .mac, s => s.mac.pc = .returned
  | .crypt, s => s.crypt.pc = .returned
  | .write, s => s.write.pc = .returned

/-- What holds in every state of a run in which nothing fails. -/
structure Healthy (s : State J) : Prop where
  inv : Inv s
  order : Order s
  gated : Gated s
  clean : Clean s
  holding : WriteThread.Holding s.write

section Step

variable {s s' : State J} {b : Thread × Outcome} {t : Thread} {x a d : List Chunk}

/-- When the byte count is reached, no data is on its way to the writer. -/
theorem Course.delivered (hF : Course s x a d) (hG : Genuine J) (hn : J.headerSize.getD 0 ≤ s.write.bytes_written) :
    ∀ c ∈ s.write_queue.elements ++ d, c.action = .DONE := by
  intro c hc
  by_contra hd
  have hmem : c ∈ s.write.write_chunk.toList ++ (s.write_queue.elements ++ d) := List.mem_append_right _ hc
  have hle : J.state_size.bytes ≤ c.data_size := (hF.cargo.filled c hmem hd).2
  have hsum := List.le_sum_of_mem (List.mem_map_of_mem hmem (f := Chunk.data_size))
  have htotal := hF.cargo.total
  have hlast := hG.last
  omega

/-- And none is on its way to `decryptQueue`. -/
theorem Course.drained (hF : Course s x a d) (hfail : ∀ code, s.crypt.pc ≠ .fail code)
    (hall : ∀ c ∈ s.write_queue.elements ++ d, c.action = .DONE) :
    ∀ c ∈ s.crypto_queue.elements ++ a, c.action = .DONE := by
  have hd : ∀ c ∈ d, c.action = .DONE := fun c hc => hall c (List.mem_append_right _ hc)
  have hh : s.crypt.st.header = false := by
    by_contra hh
    obtain ⟨c, hc, hne⟩ := hF.strips (by simpa using hh)
    exact hne (hd c hc)
  have hqueue : DecryptThread.decryptQueue J.tf J.tf_key s.crypt.st (s.crypto_queue.elements ++ a) = some d →
      ∀ c ∈ s.crypto_queue.elements ++ a, c.action = .DONE :=
    fun h => DecryptThread.decryptQueue_done h hd hh hF.cryptLast
  have hR := hF.crypt
  cases hp : s.crypt.pc with
  | fail code => exact absurd hp (hfail code)
  | alloc | fetch =>
    rw [DecryptThread.Rest, hp] at hR
    exact hqueue hR.2
  | testRunning | testError =>
    rw [DecryptThread.Rest, hp] at hR
    obtain ⟨-, hq⟩ | ⟨-, -, c, os, -, hne, -, rfl⟩ := hR
    · exact hqueue hq
    · exact absurd (hd c List.mem_cons_self) hne
  | tryEnque =>
    rw [DecryptThread.Rest, hp] at hR
    obtain ⟨-, -, c, os, -, hne, -, rfl⟩ := hR
    exact absurd (hd c List.mem_cons_self) hne
  | doneIsFull => exact hF.spent (Or.inl hp)
  | queueDone => exact hF.spent (Or.inr (Or.inl hp))
  | returned => exact hF.spent (Or.inr (Or.inr hp))

/-- When the tag is taken out, the reader has only its `DONE` left. -/
theorem Course.all_read (hF : Course s x a d) (hset : AuthThread.Settled s.mac)
    (hfail : ∀ code, s.read.pc ≠ .fail code) (hret : s.read.pc ≠ .returned) :
    s.mac_queue.elements = [] ∧ x = [doneChunk] := by
  have hahead := hF.ahead.settled hset
  obtain ⟨ds, rfl⟩ := hF.read.last hfail hret
  have hnil : s.mac_queue.elements ++ ds = [] :=
    List.append_cancel_right ((List.append_assoc _ _ _).trans hahead : _ ++ [doneChunk] = [] ++ [doneChunk])
  obtain ⟨hempty, rfl⟩ := List.append_eq_nil_iff.mp hnil
  exact ⟨hempty, rfl⟩

/-- When `running` is cleared, the writer is done and the tag is accepted. -/
theorem Healthy.stopped (hS : Healthy s) (hrun : s.fl.running = false) :
    WriteThread.Past s.write s.fl ∧ AuthThread.Settled s.mac := by
  have hpast : WriteThread.Past s.write s.fl := by
    unfold WriteThread.Past
    rw [hS.inv.stopped hrun]
    exact hS.clean.error
  exact ⟨hpast, hS.order.settled (hS.gated.past hpast)⟩

theorem Healthy.looks (hS : Healthy s) (hp : s.mac.pc = .testRunning ∨ s.mac.pc = .test2Running) :
    s.fl.running = true := by
  by_contra hrun
  obtain ⟨-, hset⟩ := hS.stopped (by simpa using hrun)
  rcases hset with h | h | h <;> rcases hp with hp | hp <;> cases hp.symm.trans h

theorem Healthy.step (hS : Healthy s) (hG : Genuine J) (hok : Smooth s b) (hstep : DecryptRun.step s b = some s') :
    Healthy s' := by
  have h := moves_of_step hstep
  refine ⟨hS.inv.step h, hS.order.step h hS.inv, hS.gated.step h hS.inv hok.2,
    hS.clean.step hG.admissible hG.size hG.tag hstep hS.inv hok.1 fun _ hp => hS.looks hp, ?_⟩
  obtain ⟨t, o⟩ := b
  cases h with
  | write h => exact h.holding
  | read _ | mac _ | crypt _ => exact hS.holding

/-- The others neither bring the writer past its loop nor back. -/
theorem Healthy.past_iff (hS : Healthy s) {fl : Flags} (herr' : fl.error = none) :
    WriteThread.Past s.write fl ↔ WriteThread.Past s.write s.fl :=
  ⟨fun hp => hp.mono fun _ => hS.clean.error, fun hp => hp.mono fun _ => herr'⟩

/-- The byte count the writer looks at is the size in the header. -/
theorem Healthy.count (hS : Healthy s) (hp : s.write.pc = .testSize) (hn : s.fl.new_file_size ≤ s.write.bytes_written) :
    J.headerSize.getD 0 ≤ s.write.bytes_written := by
  have hvalid := hS.inv.valid
  rw [hS.inv.sized hp] at hvalid
  rw [hS.inv.size hS.clean.error (by simpa using hvalid.symm)]
  exact hn

/-! ### What a step leaves to do -/

theorem Course.read_step {l : Reader.Local} {fl : Flags} {out : Queue} (hS : Healthy s) (herr' : fl.error = none)
    (h : (reader J).Moves s.read s.fl s.mac_queue l fl out) (hF : Course s x a d) :
    ∃ x', Course { s with read := l, fl := fl, mac_queue := out } x' a d ∧
      out.elements ++ x' = s.mac_queue.elements ++ x := by
  have hstop : s.read.pc = .testRunning → s.fl.running = false → x = [doneChunk] := fun hp hrun =>
    (hF.all_read (hS.stopped hrun).2 hS.clean.read fun hf => by cases hp.symm.trans hf).2
  obtain ⟨x', hx', hcons⟩ := h.rest_stopped hS.clean.error herr' hS.inv.readReady hF.read hstop
  have hpast := hS.past_iff herr'
  exact ⟨x', { hF with
    read := hx'
    mac := by rw [hcons]; exact hF.mac
    ahead := by rw [hcons]; exact hF.ahead
    hand := fun hn => hF.hand (mt hpast.mpr hn)
    comes := fun hn => hF.comes (mt hpast.mpr hn)
    tail := fun hp => hF.tail (hpast.mp hp) }, hcons⟩

theorem Course.mac_step {l : AuthThread.Local J.sk} {fl : Flags} {inq out : Queue} (hS : Healthy s)
    (herr' : fl.error = none)
    (h : AuthThread.Moves J.tf J.tf_key J.mac_context s.mac s.fl s.mac_queue s.crypto_queue l fl inq out)
    (hF : Course s x a d) :
    ∃ a', Course { s with mac := l, fl := fl, mac_queue := inq, crypto_queue := out } x a' d ∧
      out.elements ++ a' = s.crypto_queue.elements ++ a := by
  have hrest : ∃ a', AuthThread.Rest J.mac_context (checkChunk J.file J.state_size) (macChunk J.file J.state_size)
      (finalCtx J) l (inq.elements ++ x) a' ∧ out.elements ++ a' = s.crypto_queue.elements ++ a := by
    cases hrun : s.fl.running with
    | true => exact h.rest hrun hS.clean.error herr' hS.inv.macReady (out_action_ne J) rfl hF.mac
    | false =>
      obtain ⟨a', ha', hcons, rfl⟩ := h.rest_settled hS.inv.macReady (hS.stopped hrun).2 hF.mac
      exact ⟨a', ha', hcons⟩
  obtain ⟨a', ha', hcons⟩ := hrest
  have hpast := hS.past_iff herr'
  exact ⟨a', { hF with
    mac := ha'
    ahead := h.ahead (fun hp => hS.looks (Or.inl hp)) hS.clean.error hS.clean.mac rfl hF.mac hF.ahead
    crypt := by rw [hcons]; exact hF.crypt
    cryptLast := by rw [hcons]; exact hF.cryptLast
    hand := fun hn => hF.hand (mt hpast.mpr hn)
    comes := fun hn => hF.comes (mt hpast.mpr hn)
    spent := by rw [hcons]; exact hF.spent
    tail := fun hp => by rw [hcons]; exact hF.tail (hpast.mp hp) }, hcons⟩

theorem doneLast_of_takes {inq inq' : Queue} {cs : List Chunk} (htakes : inq' = inq ∨ inq' = inq.deque)
    (h : DoneLast (inq.elements ++ cs)) : DoneLast (inq'.elements ++ cs) := by
  rcases htakes with rfl | rfl
  · exact h
  · cases hel : inq.elements with
    | nil => rw [hel] at h; simpa [hel] using h
    | cons c ds => rw [hel] at h; simpa [hel] using h.tail

theorem mem_of_takes_append {inq inq' : Queue} {cs : List Chunk} (htakes : inq' = inq ∨ inq' = inq.deque) {c : Chunk}
    (hc : c ∈ inq'.elements ++ cs) : c ∈ inq.elements ++ cs :=
  List.mem_append.mpr ((List.mem_append.mp hc).imp_left fun h => mem_of_takes htakes h)

/-- Nothing is behind a `DONE` that is taken out. -/
theorem nil_of_taken {inq : Queue} {c : Chunk} {cs : List Chunk} (hlast : DoneLast (inq.elements ++ cs))
    (hf : inq.front = some c) (hd : c.action = .DONE) : inq.deque.elements ++ cs = [] :=
  hlast [] c _ (by rw [front_eq_some hf]; rfl) hd

theorem Course.crypt_step {l : DecryptThread.Local} {fl : Flags} {inq out : Queue} (hS : Healthy s)
    (herr' : fl.error = none)
    (h : DecryptThread.Moves J.tf J.tf_key s.crypt s.fl s.crypto_queue s.write_queue l fl inq out)
    (hF : Course s x a d) :
    ∃ d', Course { s with crypt := l, fl := fl, crypto_queue := inq, write_queue := out } x a d' ∧
      out.elements ++ d' = s.write_queue.elements ++ d := by
  have hstop : s.crypt.pc = .testRunning → s.fl.running = false → d = [doneChunk] := fun hp hrun => by
    have hall : ∀ c ∈ d, c.action = .DONE := fun c hc =>
      (hF.tail (hS.stopped hrun).1).2 c (List.mem_append_right _ hc)
    have hR := hF.crypt
    rw [DecryptThread.Rest, hp] at hR
    obtain ⟨-, hq⟩ | ⟨-, -, c, os, -, hne, -, rfl⟩ := hR
    · obtain ⟨es, rfl, hes⟩ := DecryptThread.decryptQueue_last hq
      cases es with
      | nil => rfl
      | cons e es => exact absurd (hall e List.mem_cons_self) (hes e List.mem_cons_self)
    · exact absurd (hall c List.mem_cons_self) hne
  obtain ⟨d', hd', hcons⟩ := h.rest_stopped hS.clean.error herr' hS.inv.cryptReady hF.crypt hstop
  have hpast := hS.past_iff herr'
  refine ⟨d', { hF with
    crypt := hd'
    write := by rw [hcons]; exact hF.write
    cryptLast := doneLast_of_takes h.takes hF.cryptLast
    writeLast := by rw [hcons]; exact hF.writeLast
    strips := fun hh => ?_
    hand := fun hn => hF.hand (mt hpast.mpr hn)
    comes := fun hn => by rw [hcons]; exact hF.comes (mt hpast.mpr hn)
    cargo := by rw [hcons]; exact hF.cargo
    spent := fun hs c hc => ?_
    tail := fun hp => ?_ }, hcons⟩
  · obtain ⟨hh', hout⟩ := h.header hh
    obtain ⟨c, hc, hne⟩ := hF.strips hh'
    have hR := hF.crypt
    rcases hout with hout | hp | hp
    · rw [hout] at hcons
      rw [List.append_cancel_left hcons]
      exact ⟨c, hc, hne⟩
    · rw [DecryptThread.Rest, hp] at hR
      exact absurd (hR.1.symm.trans hh') (by decide)
    · rw [DecryptThread.Rest, hp] at hR
      rw [show d = [doneChunk] from hR] at hc
      cases List.mem_singleton.mp hc
      exact absurd doneChunk_action hne
  · rcases h.spent hS.clean.error hS.clean.crypt hS.order.carryCrypt hs with hs | hrun | ⟨e, hf, hd, rfl⟩
    · exact hF.spent hs c (mem_of_takes_append h.takes hc)
    · exact (hF.tail (hS.stopped hrun).1).1 c (mem_of_takes_append h.takes hc)
    · rw [nil_of_taken hF.cryptLast hf hd] at hc
      cases hc
  · obtain ⟨h1, h2⟩ := hF.tail (hpast.mp hp)
    exact ⟨fun c hc => h1 c (mem_of_takes_append h.takes hc), by rw [hcons]; exact h2⟩

theorem Course.write_step {l : WriteThread.Local} {fl : Flags} {inq : Queue} {fs : FileSystem} (hS : Healthy s)
    (hS' : Healthy { s with write := l, fl := fl, write_queue := inq, fs := fs }) (hG : Genuine J)
    (h : WriteThread.Moves (writeParams J) s.write s.fl s.write_queue s.fs l fl inq fs) (hF : Course s x a d) :
    Course { s with write := l, fl := fl, write_queue := inq, fs := fs } x a d := by
  have hrun := hS.inv.runs h.not_returned
  have hsized := hS.inv.writeSized ⟨hrun, hS.clean.error⟩
  have hlater := h.later
  -- as long as the writer is in its loop, it holds no `DONE`
  have hback : ¬ WriteThread.Past l fl → ¬ WriteThread.Past s.write s.fl := fun hn hp =>
    hn (h.keeps_past hS'.clean.error hp)
  have hsum : ∀ (l : WriteThread.Local) (q : Queue), ((l.write_chunk.toList ++ (q.elements ++ d)).map Chunk.data_size).sum =
      WriteThread.held l q + (d.map Chunk.data_size).sum := fun l q => by
    rw [WriteThread.held, ← List.append_assoc, List.map_append, List.sum_append]
  obtain ⟨hfilled, htotal, hsize, hdue⟩ := hF.cargo
  rw [hsum] at htotal
  have hbudget := h.budget rfl hsized hG.size_lt
    (lt_of_le_of_lt (by omega) (length_plaintext_lt hG.admissible)) hsize hdue
  have hloops := fun hn => h.loops (d := d) hS'.clean.error hn (hF.hand (hback hn)) (hF.comes (hback hn))
  exact { hF with
    write := by
      cases hrun' : fl.running with
      | true =>
        exact h.rest hrun' hrun hS.clean.error hS'.clean.error rfl hsized hF.write
      | false =>
        have hpast := (hS'.stopped hrun').1
        have hpc := hS'.inv.stopped hrun'
        have hw := (hS'.inv.past hpast).1
        rw [WriteThread.Rest, hpc]
        exact hw
    writeLast := doneLast_of_takes h.takes hF.writeLast
    hand := fun hn => (hloops hn).1
    comes := fun hn => (hloops hn).2
    cargo :=
      { filled := fun c hc => hfilled c (by
          rcases List.mem_append.mp hc with hc | hc
          · rcases h.takes_chunk (Option.mem_toList.mp hc) with hc | hc
            · exact List.mem_append_left _ (Option.mem_toList.mpr hc)
            · exact List.mem_append_right _ (List.mem_append_left _ hc)
          · exact List.mem_append_right _ (mem_of_takes_append h.takes hc))
        total := by
          show l.bytes_written + ((l.write_chunk.toList ++ (inq.elements ++ d)).map Chunk.data_size).sum ≤ _
          rw [hsum]
          omega
        size := hbudget.2.1
        due := hbudget.2.2 }
    tail := fun hp => by
      by_cases hpast : WriteThread.Past s.write s.fl
      · obtain ⟨h1, h2⟩ := hF.tail hpast
        exact ⟨h1, fun c hc => h2 c (mem_of_takes_append h.takes hc)⟩
      · rcases h.leaves hrun (hF.hand hpast) hp with hp | ⟨c, hf, hd, rfl⟩ | ⟨hpc, hn, rfl⟩
        · exact absurd hp hpast
        · -- `DONE` is the last chunk, and all before it is decrypted
          have hret := hS.order.cryptDone ⟨c, by rw [front_eq_some hf]; exact List.mem_cons_self, hd⟩
          refine ⟨hF.spent (Or.inr (Or.inr hret)), fun e he => ?_⟩
          rw [nil_of_taken hF.writeLast hf hd] at he
          cases he
        · have hall := hF.delivered hG (hS.count hpc hn)
          exact ⟨hF.drained hS.clean.crypt hall, hall⟩ }

/-- What the writer is given is something to write. -/
theorem Course.filled (hF : Course s x a d) : WriteThread.Filled s.write s.write_queue := by
  have hdata : ∀ c ∈ s.write.write_chunk.toList ++ (s.write_queue.elements ++ d), c.action = .DONE ∨ c.data ≠ [] := by
    intro c hc
    by_cases hd : c.action = .DONE
    · exact Or.inl hd
    · exact Or.inr (hF.cargo.filled c hc hd).1
  have hR := hF.write
  refine ⟨fun _ c hc => hdata c (List.mem_append_left _ (Option.mem_toList.mpr hc)), fun hp => ?_, fun hp => ?_⟩
  · rw [WriteThread.Rest, hp] at hR
    refine ⟨hR.1, fun c hf => hdata c (List.mem_append_right _ (List.mem_append_left _ ?_))⟩
    rw [front_eq_some hf]
    exact List.mem_cons_self
  · rcases hp with hp | hp <;> rw [WriteThread.Rest, hp] at hR <;> exact hR.2.1

theorem Course.step (h : Moves s t s') (hS : Healthy s) (hS' : Healthy s') (hG : Genuine J) (hF : Course s x a d) :
    ∃ x' a' d', Course s' x' a' d' ∧
      (toGo s' x' a' d' < toGo s x a d ∨ toGo s' x' a' d' ≤ toGo s x a d ∧ ¬ Drives t s) := by
  cases h with
  | @read l fl out h =>
    obtain ⟨x', hF', hcons⟩ := hF.read_step hS hS'.clean.error h
    refine ⟨x', a, d, hF', ?_⟩
    have hlen : out.elements.length + x'.length = s.mac_queue.elements.length + x.length := by
      rw [← List.length_append, hcons, List.length_append]
    have hmac : AuthThread.lap s.mac out s.crypto_queue ≤ AuthThread.lap s.mac s.mac_queue s.crypto_queue :=
      AuthThread.lap_le s.mac (h.produces.nonempty fun hp => hS.inv.readReady (Reader.pc_of_put hp)) id
    have hhand : s.read.pc = .enque → s.read.data_chunk ≠ none := fun hp hn => by
      have hx := hF.read
      rw [Reader.Rest, hp] at hx
      obtain ⟨c, ds, hc, -⟩ := hx
      cases hc.symm.trans hn
    rcases h.laps hS.inv.readReady hhand with hlt | ⟨heq, rfl, hno⟩
    · refine Or.inl ?_
      simp only [toGo]
      omega
    · refine Or.inr ⟨?_, hno⟩
      simp only [toGo]
      omega
  | @mac l fl inq out h =>
    obtain ⟨a', hF', hcons⟩ := hF.mac_step hS hS'.clean.error h
    refine ⟨x, a', d, hF', ?_⟩
    have hlen : out.elements.length + a'.length = s.crypto_queue.elements.length + a.length := by
      rw [← List.length_append, hcons, List.length_append]
    have hcrypt : DecryptThread.lap s.crypt out s.write_queue ≤
        DecryptThread.lap s.crypt s.crypto_queue s.write_queue :=
      DecryptThread.lap_le s.crypt (h.produces.nonempty fun hp => hS.inv.macReady (AuthThread.pc_of_put hp)) id
    have hsees : s.mac.pc = .peek ∨ s.mac.pc = .fetch2 → s.mac_queue.front ≠ none := fun hp hn => by
      have hsees := hS.inv.sees
      unfold AuthThread.Sees at hsees
      rcases hp with hp | hp <;> rw [hp] at hsees <;> cases hn.symm.trans hsees.1
    rcases h.laps hS.inv.macReady (fun hp => hS.looks (Or.inl hp)) hS.clean.error hsees hF.mac with
      hlt | ⟨heq, rfl, hno⟩
    · refine Or.inl ?_
      simp only [toGo]
      omega
    · refine Or.inr ⟨?_, hno⟩
      simp only [toGo]
      omega
  | @crypt l fl inq out h =>
    obtain ⟨d', hF', hcons⟩ := hF.crypt_step hS hS'.clean.error h
    refine ⟨x, a, d', hF', ?_⟩
    have hlen : out.elements.length + d'.length = s.write_queue.elements.length + d.length := by
      rw [← List.length_append, hcons, List.length_append]
    have hmac : AuthThread.lap s.mac s.mac_queue inq ≤ AuthThread.lap s.mac s.mac_queue s.crypto_queue :=
      AuthThread.lap_le s.mac id (HasRoom.of_takes h.takes)
    have hwrite : WriteThread.lap s.write out ≤ WriteThread.lap s.write s.write_queue :=
      WriteThread.lap_le s.write (h.produces.nonempty fun hp =>
        (DecryptThread.room_or_done hp).elim id hS.inv.cryptReady)
    rcases h.laps hS.inv.cryptReady hF.crypt with hlt | ⟨heq, rfl, hno⟩
    · refine Or.inl ?_
      simp only [toGo, WriteThread.waiting]
      omega
    · refine Or.inr ⟨?_, hno⟩
      simp only [toGo, WriteThread.waiting]
      omega
  | @write l fl inq fs h =>
    refine ⟨x, a, d, hF.write_step hS hS' hG h, ?_⟩
    have hcrypt : DecryptThread.lap s.crypt s.crypto_queue inq ≤
        DecryptThread.lap s.crypt s.crypto_queue s.write_queue :=
      DecryptThread.lap_le s.crypt id (HasRoom.of_takes h.takes)
    rcases h.laps hF.filled with hlt | ⟨heq, hno⟩
    · refine Or.inl ?_
      simp only [toGo]
      omega
    · refine Or.inr ⟨?_, hno⟩
      simp only [toGo]
      omega

end Step

/-! ### Every round brings the end nearer -/

/-- Nothing has failed, and fewer than `n` laps are left. -/
structure Within (n : ℕ) (s : State J) : Prop where
  healthy : Healthy s
  left : ∃ x a d, Course s x a d ∧ toGo s x a d < n

section Rounds

variable {s s' : State J} {b : Thread × Outcome} {t : Thread} {n : ℕ} {x a d : List Chunk}

theorem Moves.not_ended (h : Moves s t s') : ¬ Ended t s := by
  cases h with
  | read h => exact h.not_returned
  | mac h => exact h.not_returned
  | crypt h => exact h.not_returned
  | write h => exact h.not_returned

theorem Returned.ended (h : Returned s) (t : Thread) : Ended t s := by
  cases t with
  | read => exact h.1
  | mac => exact h.2.1
  | crypt => exact h.2.2.1
  | write => exact h.2.2.2

/-- What one thread does keeps another one driving. -/
theorem Drives.stays (h : Moves s t s') (hI : Inv s) {i : Thread} (hi : t ≠ i) (hD : Drives i s) : Drives i s' := by
  cases h with
  | read h =>
    have hne := h.produces.nonempty fun hp => hI.readReady (Reader.pc_of_put hp)
    cases i with
    | read => exact absurd rfl hi
    | mac => exact AuthThread.Drives.mono hD hne id
    | crypt => exact hD
    | write => exact hD
  | mac h =>
    have hne := h.produces.nonempty fun hp => hI.macReady (AuthThread.pc_of_put hp)
    cases i with
    | read => exact Reader.Drives.mono hD (HasRoom.of_takes h.takes)
    | mac => exact absurd rfl hi
    | crypt => exact DecryptThread.Drives.mono hD hne id
    | write => exact hD
  | crypt h =>
    have hne := h.produces.nonempty fun hp => (DecryptThread.room_or_done hp).elim id hI.cryptReady
    cases i with
    | read => exact hD
    | mac => exact AuthThread.Drives.mono hD id (HasRoom.of_takes h.takes)
    | crypt => exact absurd rfl hi
    | write => exact WriteThread.Drives.mono hD hne
  | write h =>
    cases i with
    | read => exact hD
    | mac => exact hD
    | crypt => exact DecryptThread.Drives.mono hD id (HasRoom.of_takes h.takes)
    | write => exact absurd rfl hi

/-- The writer may not step: it would leave at the byte count before the tag is accepted. -/
def Blocked (s : State J) : Prop :=
  s.write.pc = .testSize ∧ s.fl.new_file_size ≤ s.write.bytes_written ∧ ¬ TagAccepted s

theorem Within.step (h : Within n s) (hG : Genuine J) (hok : Smooth s b) (hstep : DecryptRun.step s b = some s') :
    ∃ m, m ≤ n ∧ Within m s' ∧ (Drives b.1 s → m < n) := by
  have hS' := h.healthy.step hG hok hstep
  obtain ⟨x, a, d, hF, hlt⟩ := h.left
  obtain ⟨x', a', d', hF', hle⟩ := hF.step (moves_of_step hstep) h.healthy hS' hG
  refine ⟨toGo s' x' a' d' + 1, ?_, ⟨hS', x', a', d', hF', Nat.lt_succ_self _⟩, fun hD => ?_⟩
  · rcases hle with hle | ⟨hle, -⟩ <;> omega
  · rcases hle with hle | ⟨-, hno⟩
    · omega
    · exact absurd hD hno

/-- With room behind it `authenticateMAC` drives, or it waits for the reader. -/
theorem Course.front (hF : Course s x a d) (hO : Order s) (hcap : 0 < J.que_size) (hmac : s.mac.pc ≠ .returned)
    (hroom : s.crypto_queue.HasRoom) : ∃ i, i ≠ .write ∧ Drives i s := by
  by_cases hU : AuthThread.Unfed s.mac s.mac_queue
  · have hx : x ≠ [] := hU.awaits hF.mac
    have hret : s.read.pc ≠ .returned := fun hp => by
      have hR := hF.read
      rw [Reader.Rest, hp] at hR
      exact hx hR
    exact ⟨.read, (by decide), hret, hO.opens.1.room hcap hU.2.1⟩
  · exact ⟨.mac, (by decide), hmac, hroom, hU⟩

/-- With room behind it `decryptQueue` drives, or it waits for the threads before it. -/
theorem Course.middle (hF : Course s x a d) (hO : Order s) (hcap : 0 < J.que_size) (hcrypt : s.crypt.pc ≠ .returned)
    (hroom : s.write_queue.HasRoom) : ∃ i, i ≠ .write ∧ Drives i s := by
  by_cases hU : DecryptThread.Unfed s.crypt s.crypto_queue
  · have ha : a ≠ [] := hU.awaits hF.crypt
    have hret : s.mac.pc ≠ .returned := fun hp => by
      have hR := hF.mac
      rw [AuthThread.Rest, hp] at hR
      exact ha hR
    exact hF.front hO hcap hret (hO.opens.2.1.room hcap hU.2.1)
  · exact ⟨.crypt, (by decide), hcrypt, hroom, hU⟩

/-- When nothing but `DONE` is on its way to `decryptQueue`, there is room for it. -/
theorem Course.front_drained (hF : Course s x a d) (hO : Order s) (hcap : 0 < J.que_size)
    (hmac : s.mac.pc ≠ .returned) (hall : ∀ c ∈ s.crypto_queue.elements ++ a, c.action = .DONE) :
    ∃ i, i ≠ .write ∧ Drives i s := by
  have hempty : s.crypto_queue.elements = [] := List.eq_nil_iff_forall_not_mem.mpr fun c hc =>
    hmac (hO.macDone ⟨c, hc, hall c (List.mem_append_left _ hc)⟩)
  exact hF.front hO hcap hmac (hO.opens.2.1.room hcap hempty)

/-- After the writer has returned the others still come to their ends. -/
theorem Course.driver_after (hF : Course s x a d) (hS : Healthy s) (hcap : 0 < J.que_size)
    (hwrite : s.write.pc = .returned) (hret : ¬ Returned s) : ∃ i, i ≠ .write ∧ Drives i s := by
  have hpast : WriteThread.Past s.write s.fl := by
    unfold WriteThread.Past
    rw [hwrite]
    exact hS.clean.error
  obtain ⟨hcrypto, hqueue⟩ := hF.tail hpast
  by_cases hcrypt : s.crypt.pc = .returned
  · by_cases hmac : s.mac.pc = .returned
    · -- the tag is taken out, so the reader has room for its `DONE`
      have hread : s.read.pc ≠ .returned := fun hr => hret ⟨hr, hmac, hcrypt, hwrite⟩
      have hempty := (hF.all_read (Or.inr (Or.inr hmac)) hS.clean.read hread).1
      exact ⟨.read, (by decide), hread, hS.order.opens.1.room hcap hempty⟩
    · exact hF.front_drained hS.order hcap hmac hcrypto
  · have hempty : s.write_queue.elements = [] := List.eq_nil_iff_forall_not_mem.mpr fun c hc =>
      hcrypt (hS.order.cryptDone ⟨c, hc, hqueue c (List.mem_append_left _ hc)⟩)
    exact hF.middle hS.order hcap hcrypt (hS.order.opens.2.2.room hcap hempty)

/-- While the writer waits for the tag at the byte count, there is room for it. -/
theorem Course.driver_blocked (hF : Course s x a d) (hS : Healthy s) (hG : Genuine J) (hcap : 0 < J.que_size)
    (hB : Blocked s) : ∃ i, i ≠ .write ∧ Drives i s := by
  obtain ⟨hpc, hn, hacc⟩ := hB
  have hall := hF.delivered hG (hS.count hpc hn)
  have hmac : s.mac.pc ≠ .returned := fun hp => by
    have hj := hS.inv.judged
    unfold AuthThread.Judged at hj
    rw [hp] at hj
    exact hacc (hj.resolve_left (not_not.mpr hS.clean.error))
  exact hF.front_drained hS.order hcap hmac (hF.drained hS.clean.crypt hall)

/-- As long as not all have returned some thread drives, and may step. -/
theorem Within.driver (h : Within n s) (hG : Genuine J) (hcap : 0 < J.que_size) (hret : ¬ Returned s) :
    ∃ i, Drives i s ∧ ¬ (i = .write ∧ Blocked s) := by
  obtain ⟨x, a, d, hF, -⟩ := h.left
  have hS := h.healthy
  have hother : (∃ i, i ≠ .write ∧ Drives i s) → ∃ i, Drives i s ∧ ¬ (i = .write ∧ Blocked s) := by
    rintro ⟨i, hi, hD⟩
    exact ⟨i, hD, fun hb => hi hb.1⟩
  by_cases hwrite : s.write.pc = .returned
  · exact hother (hF.driver_after hS hcap hwrite hret)
  by_cases hI : WriteThread.Idle s.write s.write_queue
  · -- the writer waits for a chunk, and there is one to come
    have hnot : ¬ WriteThread.Past s.write s.fl := fun hp => by
      unfold WriteThread.Past at hp
      rcases hI.2.2 with hpc | hpc | hpc | hpc | hpc <;> rw [hpc] at hp <;> exact hp
    obtain ⟨cs, hcs⟩ := hF.comes hnot
    rw [hI.2.1, List.nil_append] at hcs
    have hcrypt : s.crypt.pc ≠ .returned := fun hp => by
      have hR := hF.crypt
      rw [DecryptThread.Rest, hp, hcs] at hR
      exact absurd hR (by simp)
    exact hother (hF.middle hS.order hcap hcrypt (hS.order.opens.2.2.room hcap hI.2.1))
  · by_cases hB : Blocked s
    · exact hother (hF.driver_blocked hS hG hcap hB)
    · exact ⟨.write, ⟨hwrite, hI⟩, fun hb => hB hb.2⟩

/-- A thread that has not returned can take a step. -/
theorem Within.continues (h : Within n s) (hG : Genuine J) (ht : ¬ Ended t s) :
    ∃ s', DecryptRun.step s (t, .success) = some s' := by
  obtain ⟨x, a, d, hF, -⟩ := h.left
  have hS := h.healthy
  obtain ⟨⟨-, hml⟩, ⟨-, hcl⟩, -, hwl⟩ := hS.order.opens
  cases t with
  | read =>
    have hts : (reader J).tooSmall = false := by simp [reader, decryptReader, hG.admissible.big]
    have hcont : ∃ r, (reader J).step s.read s.fl s.mac_queue .success = some r :=
      Reader.continues hml hts hF.read hS.clean.read ht
    obtain ⟨r, hr⟩ := hcont
    exact ⟨_, by simp only [DecryptRun.step, hr]; rfl⟩
  | mac =>
    have hcont : ∃ r, AuthThread.step J.tf J.tf_key J.mac_context s.mac s.fl s.mac_queue s.crypto_queue .success =
        some r := AuthThread.continues hml hcl hS.order.holding ht
    obtain ⟨r, hr⟩ := hcont
    exact ⟨_, by simp only [DecryptRun.step, hr]; rfl⟩
  | crypt =>
    have hcont : ∃ r, DecryptThread.step J.tf J.tf_key s.crypt s.fl s.crypto_queue s.write_queue .success = some r :=
      DecryptThread.continues hcl hwl hF.crypt ht
    obtain ⟨r, hr⟩ := hcont
    exact ⟨_, by simp only [DecryptRun.step, hr]; rfl⟩
  | write =>
    obtain ⟨r, hr⟩ := WriteThread.continues (writeParams J) s.fl s.fs hwl hS.holding ht
    exact ⟨_, by simp only [DecryptRun.step, hr]; rfl⟩

theorem driven (hG : Genuine J) (hcap : 0 < J.que_size) :
    Lts.Driven (step (J := J)) Smooth Prod.fst Ended Returned Within Drives where
  final := fun s a hret => by
    by_contra hne
    obtain ⟨s', hs'⟩ := Option.ne_none_iff_exists'.mp hne
    exact (moves_of_step hs').not_ended (hret.ended a.1)
  driven := fun n s h hret => (h.driver hG hcap hret).imp fun _ hi => hi.1
  awake := fun n s i _ hD => by
    cases i with
    | read => exact hD.1
    | mac => exact hD.1
    | crypt => exact hD.1
    | write => exact hD.1
  stays := fun n s a s' i h _ hs hi hD => hD.stays (moves_of_step hs) h.healthy.inv hi
  lowers := fun n s a s' h hok hs => h.step hG hok hs

/-- A thread that drives, and may step, can be given its turn. -/
theorem Within.turn (h : Within n s) (hG : Genuine J) (hcap : 0 < J.que_size) (hret : ¬ Returned s) :
    ∃ i as s', Drives i s ∧ Lts.Path DecryptRun.step Smooth s as s' ∧ ∃ b ∈ as, b.1 = i := by
  obtain ⟨i, hD, hB⟩ := h.driver hG hcap hret
  obtain ⟨s', hs'⟩ := h.continues hG ((driven hG hcap).awake n s i h hD)
  have hok : Smooth s (i, .success) := ⟨rfl, fun hi hpc hn => by
    by_contra hacc
    exact hB ⟨hi, hpc, hn, hacc⟩⟩
  exact ⟨i, [(i, .success)], s', hD, .cons hok hs' .nil, (i, .success), List.mem_singleton_self _, rfl⟩

end Rounds

/-! ### The bound at the start -/

/-- The chunks `decryptQueue` is given have at least a block each. -/
theorem plan_sizes (hJ : Admissible J) :
    ∀ c ∈ (checkChunk J.file J.state_size :: macPlan J.file J.state_size J.max_chunk).map
        (AuthThread.passed J.mac_context) ++ [doneChunk],
      c.action ≠ .DONE → J.state_size.bytes ≤ c.data_size := by
  have hblock : ∀ {p : List Byte} {a : Action}, 0 < p.length →
      J.state_size.bytes ≤ (dataChunk a J.state_size p).data_size := fun hp =>
    Nat.le_mul_of_pos_left _ (blockCount_pos J.state_size hp)
  have hhead : 0 < (headerPart J.file J.state_size).length := by
    rw [length_headerPart hJ.big]
    exact Nat.mul_pos Nat.two_pos J.state_size.bytes_pos
  intro c hc hd
  rcases List.mem_append.mp hc with hc | hc
  · obtain ⟨e, he, rfl⟩ := List.mem_map.mp hc
    rcases List.mem_cons.mp he with rfl | he
    · exact hblock hhead
    · obtain ⟨p, hp, rfl⟩ := List.mem_map.mp he
      exact hblock (mem_pieces J.max_chunk_pos hp).1
  · rw [List.mem_singleton.mp hc] at hd
    exact absurd doneChunk_action hd

theorem start_course (hG : Genuine J) (fs : FileSystem) :
    ∃ x a d, Course (start J fs) x a d ∧
      toGo (start J fs) x a d < 40 * (pieceCount (dataPart J.file J.state_size).length J.max_chunk + 4) := by
  have hJ := hG.admissible
  obtain ⟨es, hes, hact, hbytes⟩ := decryptQueue_plan hJ.big
  have hw := asyncWrite_plan hJ.big hJ.fits hG.size_lt hact hbytes
  set ds := checkChunk J.file J.state_size :: macPlan J.file J.state_size J.max_chunk with hds
  have hleft : AuthThread.Left (macChunk J.file J.state_size) ds
      (decryptPlan J.file J.state_size J.max_chunk ++ [doneChunk]) := by
    refine ⟨fun d hd => ?_, by simp [decryptPlan, hds]⟩
    rcases List.mem_cons.mp hd with rfl | hd
    · rfl
    · obtain ⟨p, -, rfl⟩ := List.mem_map.mp hd
      rfl
  have hfeed : @AuthThread.feed J.sk J.mac_context.skein_context ds = finalCtx J := by
    rw [AuthThread.feed, hds, foldl_skeinUpdate, flatMap_bytes_plan hJ.big]; rfl
  have hne : es ≠ [] := fun h => by
    have hlen := congrArg List.length hbytes
    have hpos := length_dataPart hJ.big
    have hlong := isGreaterThanThreeBlocks_iff.mp hJ.big
    have hle := le_blockCount_mul (dataPart J.file J.state_size).length J.state_size
    rw [h, List.flatMap_nil, List.length_nil, length_plaintext hJ.big, length_padded] at hlen
    omega
  have htotal : ((es ++ [doneChunk]).map Chunk.data_size).sum = J.plaintext.length := by
    rw [List.map_append, List.sum_append, ← Leftover.length_bytes fun e he => (hact e he).2.handed (hact e he).1,
      hbytes]
    rfl
  have hsizes := DecryptThread.decryptQueue_sizes (p := (J.state_size.bytes ≤ ·)) hes (plan_sizes hJ)
  refine ⟨decryptPlan J.file J.state_size J.max_chunk ++ [doneChunk],
    ds.map (AuthThread.passed J.mac_context) ++ [doneChunk], es ++ [doneChunk], ?_, ?_⟩
  · exact
      { read := ⟨rfl, _, decryptReader_reads hJ.big J.max_chunk_pos (J.reads _) hJ.fits, rfl⟩
        mac := Or.inl ⟨rfl, rfl, ds, hleft, hfeed, rfl, fun _ => rfl⟩
        ahead := trivial
        crypt := ⟨rfl, hes⟩
        write := ⟨_, hw, rfl⟩
        cryptLast := doneLast_concat (fun c hc => by
          obtain ⟨e, -, rfl⟩ := List.mem_map.mp hc
          exact (out_action_ne J).2) _
        writeLast := doneLast_concat (fun e he => (hact e he).1) _
        strips := fun _ => by
          obtain ⟨e, es', rfl⟩ := List.exists_cons_of_ne_nil hne
          exact ⟨e, List.mem_cons_self, (hact e List.mem_cons_self).1⟩
        hand := fun _ c hc => by cases hc
        comes := fun _ => ⟨es, rfl⟩
        cargo :=
          { filled := fun c hc hd => by
              have hc : c ∈ es ++ [doneChunk] := hc
              rcases List.mem_append.mp hc with he | he
              · exact ⟨(hact c he).2.1, hsizes c hc hd⟩
              · rw [List.mem_singleton.mp he] at hd
                exact absurd doneChunk_action hd
            total := (Nat.zero_add _).trans_le htotal.le
            size := Nat.zero_le _
            due := fun hp => by cases hp }
        spent := by rintro (h | h | h) <;> cases h
        tail := fun hp => hp.elim }
  · have hdlen := DecryptThread.length_decryptQueue hes
    have halen : (ds.map (AuthThread.passed J.mac_context) ++ [doneChunk]).length =
        pieceCount (dataPart J.file J.state_size).length J.max_chunk + 2 := by
      simp [hds, macPlan]
    have hxlen : (decryptPlan J.file J.state_size J.max_chunk ++ [doneChunk]).length =
        pieceCount (dataPart J.file J.state_size).length J.max_chunk + 3 := by
      simp [decryptPlan, macPlan]
    rw [halen] at hdlen
    simp only [toGo, hxlen, halen]
    show 5 + 4 * _ + (12 + 12 * _) + (17 + 8 * (es ++ [doneChunk]).length) +
      (14 + 16 * (0 + (es ++ [doneChunk]).length)) < _
    omega

theorem start_within (hG : Genuine J) (fs : FileSystem) :
    Within (40 * (pieceCount (dataPart J.file J.state_size).length J.max_chunk + 4)) (start J fs) where
  healthy :=
    { inv := start_inv hG.admissible fs
      order := start_order hG.admissible fs
      gated := start_gated fs
      clean := start_clean fs
      holding := by rintro (h | h) <;> cases h }
  left := start_course hG fs

/-! ### The end of the decryption -/

/-- A file this program has encrypted is genuine. -/
theorem genuine_reading {J : Job} {iv : List Word} {args : Arguments} {hs : args.state_size = J.state_size}
    {hf : args.file_size = (J.image iv).length} (hinv : J.tf.Inverts J.tf_key)
    (hlen : iv.length = J.state_size.words) (hsize : 2 ≤ J.file.length) (hfits : J.file.length < 2 ^ 63) :
    Genuine (J.reading args (J.image iv) hs hf) := by
  obtain ⟨hbig, h64⟩ := image_big (J := J) hlen (by omega) hfits
  have hn := reading_headerSize hs hf hinv hlen (by omega)
  refine ⟨⟨hbig, h64⟩, ?_, reading_storedTag hs hf hlen, ?_, ?_⟩
  · rw [hn]
    exact Option.some_ne_none _
  · rw [hn]
    exact Nat.lt_of_lt_of_le Nat.zero_lt_two hsize
  · rw [hn, reading_plaintext hs hf hinv hlen, length_padded]
    exact blockCount_mul_lt _ _

/-- Wherever a smooth run on an encrypted file has come to, there are schedules
in which every thread gets its turn again and again, and each of them ends the
decryption without an error, within a number of rounds that is linear in the
number of chunks; the file is in place then if no longer temp file was there. -/
theorem decryption_completes (J : Job) {iv : List Word} {file : List Byte} (hinv : J.tf.Inverts J.tf_key)
    (hiv : J.args.iv = some iv) (hlen : iv.length = J.state_size.words) (hsize : 2 ≤ J.file.length)
    (hfits : J.file.length < 2 ^ 63) (hcap : 0 < J.que_size) (hfile : encryptFile J J.max_chunk = some file)
    (args : Arguments) (hs : args.state_size = J.state_size) (hf : args.file_size = file.length) (fs : FileSystem)
    {s : State (J.reading args file hs hf)}
    (hr : Lts.Reach step Smooth (start (J.reading args file hs hf) fs) s) :
    (∀ k, ∃ s', Lts.Rounds step Smooth Prod.fst Ended k s s') ∧
      ∀ k s', 40 * (pieceCount (dataPart file J.state_size).length J.max_chunk + 4) < k →
        Lts.Rounds step Smooth Prod.fst Ended k s s' →
          Returned s' ∧ s'.fl.error = none ∧ (((fs J.temp_file_name).getD []).length ≤ J.file.length →
            s'.fs (J.reading args file hs hf).destination = some J.file) := by
  cases (encryptFile_eq hiv hlen hsize J.max_chunk_pos J.max_chunk_dvd (J.reads _)).symm.trans hfile
  have hG : Genuine (J.reading args (J.image iv) hs hf) := genuine_reading hinv hlen hsize hfits
  have hD := driven hG hcap
  have hwithin : ∀ s, Lts.Reach step Smooth (start (J.reading args (J.image iv) hs hf) fs) s →
      ∃ n ≤ 40 * (pieceCount (dataPart (J.image iv) J.state_size).length J.max_chunk + 4), Within n s := fun s hs => by
    refine hs.invariant (I := fun s => ∃ n ≤ _, Within n s) ⟨_, le_rfl, start_within hG fs⟩ ?_
    intro s a s' hW hok hstep
    obtain ⟨n, hn, hW⟩ := hW
    obtain ⟨m, hm, hW', -⟩ := hW.step hG hok hstep
    exact ⟨m, le_trans hm hn, hW'⟩
  obtain ⟨n, hn, hW⟩ := hwithin s hr
  refine ⟨fun k => ?_, fun k s' hk hrounds => ?_⟩
  · exact hD.exists_rounds (fun n s hW hret => hW.turn hG hcap hret) (fun i s hret => hret.ended i) k hW
  · have hret : Returned s' := hD.rounds hrounds n (lt_of_le_of_lt hn hk) hW
    have hr' := Lts.Reach.trans hr hrounds.reach
    obtain ⟨m, -, hW'⟩ := hwithin s' hr'
    have herr := hW'.healthy.clean.error
    refine ⟨hret, herr, fun hleft => ?_⟩
    have hpast : WriteThread.Past s'.write s'.fl := by
      unfold WriteThread.Past
      rw [hret.2.2.2]
      exact herr
    have hwritten : s'.write.written = J.file := by
      rw [(hW'.healthy.inv.past hpast).1, output, reading_headerSize hs hf hinv hlen (by omega),
        reading_plaintext hs hf hinv hlen, Option.getD_some, padded, List.take_left]
    have hF : WriteThread.Filed (writeParams (J.reading args (J.image iv) hs hf)) fs s'.write s'.fl s'.fs :=
      hr'.invariant (I := fun s => WriteThread.Filed (writeParams _) fs s.write s.fl s.fs)
        WriteThread.filed_init fun _ _ _ hF hok hstep => filed_step hstep (fun _ _ => hok.1) hF
    rw [← hwritten]
    exact hF.destination hret.2.2.2 herr (by rw [hwritten]; exact hleft)

theorem decryption_completes_sample :
    (∀ k, ∃ s', Lts.Rounds step Smooth Prod.fst Ended k
        (start (Skein3fish.sampleJob false Skein3fish.sampleFile) fun _ => none) s') ∧
      ∀ k s', 200 < k →
        Lts.Rounds step Smooth Prod.fst Ended k
            (start (Skein3fish.sampleJob false Skein3fish.sampleFile) fun _ => none) s' →
          Returned s' ∧ s'.fs [1] = some Skein3fish.sampleText := by
  have hr : Lts.Reach step Smooth (start (Skein3fish.sampleJob false Skein3fish.sampleFile) fun _ => none)
    (start (Skein3fish.sampleJob false Skein3fish.sampleFile) fun _ => none) := .refl
  have hcount : pieceCount (dataPart Skein3fish.sampleFile
      (Skein3fish.sampleJob true Skein3fish.sampleText).state_size).length
      (Skein3fish.sampleJob true Skein3fish.sampleText).max_chunk = 1 := by decide +kernel
  have hall := decryption_completes (Skein3fish.sampleJob true Skein3fish.sampleText) (Skein3fish.threefish_inverts _)
    rfl rfl (by decide) (by decide) (by decide) sample_encrypted (Skein3fish.sampleJob false Skein3fish.sampleFile).args
    rfl rfl _ hr
  refine ⟨hall.1, fun k s' hk hr => ?_⟩
  obtain ⟨hret, -, hdest⟩ := hall.2 k s' (by rw [hcount]; exact hk) hr
  exact ⟨hret, hdest (Nat.zero_le _)⟩

end DecryptRun

end Threefizer
