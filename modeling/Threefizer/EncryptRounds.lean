/-
# Encryption under a fair scheduler

Undisturbed, each thread moves what it still has to put out into its queue
(`Flow`). So what is left to do goes down with every turn of a thread that
drives, and no step of another one brings it back (`Course.step`). Some thread
always drives: the writer, if there is a chunk to write; if not there is room in
its queue, and `generateMAC` drives if it has something to do; and so on up to
the reader (`Within.driver`). So the encryption completes
(`encryption_completes`).

The one thing the scheduler must not do is put `DONE` between the two looks of
`generateMAC` at its empty queue (`Smooth`).
-/
import Threefizer.Laps
import Threefizer.Lib.Rounds
import Threefizer.Progress
import Threefizer.Controller

namespace Threefizer

open Words Queue

namespace EncryptThread

variable {tf : Threefish} {tf_key : ThreefishKey} {l l' : Local} {fl fl' : Flags} {inq inq' out out' : Queue}
  {o : Outcome} {x e : List Chunk}

/-- What is done with the chunk in hand, or with the next one, has a result, and
the header is encrypted. -/
theorem Rest.works (h : Rest tf tf_key l (inq.elements ++ x) e) {c : Chunk} (hp : l.pc = .testError)
    (hc : l.encrypt_chunk = some c) : ∃ l', work tf tf_key l c = some l' ∧ l'.pc ≠ .headerFail := by
  obtain ⟨pc, st, en, ec⟩ := l
  cases hp
  cases hc
  obtain ⟨hn, -⟩ | ⟨hfirst, hen, d, os, hd, hdone, -⟩ := h
  · cases hn
  · cases hd
    have hst : st.first_chunk = false := hfirst
    have hen' : en = true := hen
    refine ⟨⟨.queueIsFull, st, en, some c⟩, ?_, fun h => by cases h⟩
    simp [work, hdone, hst, hen']

theorem Rest.works_front (h : Rest tf tf_key l (inq.elements ++ x) e) {c : Chunk} (hp : l.pc = .fetch)
    (hf : inq.front = some c) :
    ∃ l', work tf tf_key { l with encrypted := false } c = some l' ∧ l'.pc ≠ .headerFail := by
  obtain ⟨pc, st, en, ec⟩ := l
  cases hp
  obtain ⟨-, hq⟩ := h
  rw [front_eq_some hf, List.cons_append, encryptQueue] at hq
  unfold work
  by_cases hd : c.action = .DONE
  · exact ⟨_, if_pos hd, fun h => by cases h⟩
  · rw [if_neg hd] at hq ⊢
    rw [if_pos (Or.inr Bool.false_ne_true)]
    cases he : encryptChunk tf tf_key st c with
    | none => rw [he] at hq; cases hq
    | some r =>
      cases r with
      | none => rw [he] at hq; cases hq
      | some p => exact ⟨_, rfl, fun h => by cases h⟩

theorem continues (hin : inq.locked = false) (hlock : out.locked = false)
    (h : Rest tf tf_key l (inq.elements ++ x) e) (hp : l.pc ≠ .returned) :
    ∃ r, step tf tf_key l fl inq out .success = some r := by
  obtain ⟨pc, st, en, ec⟩ := l
  cases pc with
  | testError =>
    by_cases he : fl.error = none
    · cases ec with
      | none => simp [step, he]
      | some c =>
        obtain ⟨l', hl', -⟩ := h.works rfl rfl
        simp [step, he, hl']
    · simp [step, he]
  | fetch =>
    cases hf : inq.front with
    | none => simp [step, hin, hf]
    | some c =>
      obtain ⟨l', hl', -⟩ := h.works_front rfl hf
      simp only at hl'
      simp [step, hin, hf, hl']
  | queueIsFull => cases hq : out.queueIsFull <;> simp [step, hq]
  | enque => cases hq : ec.bind fun c => out.enque c <;> simp [step, hlock, hq]
  | queueDone => cases hq : out.queueDone <;> simp [step, hlock, hq]
  | returned => exact absurd rfl hp
  | _ => exact ⟨_, rfl⟩

theorem length_encryptQueue {ins outs : List Chunk} {st : EncryptState}
    (h : encryptQueue tf tf_key st ins = some outs) : outs.length ≤ ins.length := by
  induction ins generalizing st outs with
  | nil => cases h
  | cons c cs ih =>
    rw [encryptQueue] at h
    split at h
    · cases h
      simp
    · split at h
      next e st' _ =>
        obtain ⟨os, hos, rfl⟩ := Option.map_eq_some_iff.mp h
        exact Nat.succ_le_succ (ih hos)
      next => cases h

/-- A thread that goes round has something coming. -/
theorem Idle.awaits {ins outs : List Chunk} (hI : Idle l inq) (h : Rest tf tf_key l ins outs) : ins ≠ [] := by
  rintro rfl
  obtain ⟨hn, -, hp⟩ := hI
  rcases hp with hp | hp | hp <;> rw [Rest, hp] at h <;> simp [hn, encryptQueue] at h

theorem step_headerFail (hs : step tf tf_key l fl inq out o = some (l', fl', inq', out'))
    (h : Rest tf tf_key l (inq.elements ++ x) e) : l'.pc ≠ .headerFail := by
  intro hp
  obtain ⟨pc, st, en, ec⟩ := l
  cases moves_of_step hs with
  | kept hpc he hc _ =>
    cases hpc
    cases hc
    obtain ⟨k, hk, hne⟩ := h.works rfl rfl
    simp only [step, he, hk, if_true, Option.map_some] at hs
    cases hs
    exact hne hp
  | taken hpc hin hf _ =>
    cases hpc
    obtain ⟨k, hk, hne⟩ := h.works_front rfl hf
    simp only at hk
    simp only [step, hin, hf, hk, Option.map_some] at hs
    cases hs
    exact hne hp
  | doneFull hpc _ => cases hpc.symm.trans hp
  | _ => cases hp

end EncryptThread

namespace GenerateThread

variable {sk : Skein} {mc : MacCtx sk} {l l' : Local sk} {fl fl' : Flags} {inq inq' out out' : Queue}

/-- What the thread has looked at is still at the front of its queue: some chunk,
and `DONE` after the loop. -/
structure Sure (l : Local sk) (inq : Queue) : Prop where
  front : l.pc = .guard2 → inq.front ≠ none
  last : l.pc = .tail1 ∨ l.pc = .tail2 → ∃ c, inq.front = some c ∧ c.action = .DONE

theorem sure_of_ne (h2 : l.pc ≠ .guard2) (ht1 : l.pc ≠ .tail1) (ht2 : l.pc ≠ .tail2) : Sure l inq where
  front := fun h => absurd h h2
  last := fun h => (h.elim ht1 ht2).elim

theorem sure_enter : Sure (enter mc l) inq := by
  rcases enter_pc mc l with h | h | h <;> exact sure_of_ne (by rw [h]; nofun) (by rw [h]; nofun) (by rw [h]; nofun)

theorem Moves.sure (h : Moves mc l fl inq out l' fl' inq' out') (hS : Sure l inq) : Sure l' inq' := by
  cases h with
  | empty _ _ => exact sure_enter
  | notDone _ _ _ => exact sure_enter
  | notEmpty _ hf => exact ⟨fun _ h => (nomatch hf.symm.trans h), fun h => by rcases h with h | h <;> cases h⟩
  | sawDone _ hf hd => exact ⟨nofun, fun _ => ⟨_, hf, hd⟩⟩
  | tail hp _ => exact ⟨nofun, fun _ => hS.last (Or.inl hp)⟩
  | taken _ _ _ =>
    rename_i c _ _ _
    rcases work_pc mc { l with chunk_maced := false } c with h | h <;>
      exact sure_of_ne (by rw [h]; nofun) (by rw [h]; nofun) (by rw [h]; nofun)
  | full _ _ => exact hS
  | macFull _ _ => exact hS
  | doneFull _ _ => exact hS
  | _ => exact sure_of_ne nofun nofun nofun

theorem Moves.not_fail (h : Moves mc l fl inq out l' fl' inq' out') (hroom : Ready l out) (hS : Sure l inq)
    (hl : ∀ code, l.pc ≠ .fail code) (code : Error) : l'.pc ≠ .fail code := by
  intro hp
  cases h with
  | empty _ _ => rcases enter_pc mc l with h | h | h <;> exact nomatch h.symm.trans hp
  | notDone _ _ _ => rcases enter_pc mc l with h | h | h <;> exact nomatch h.symm.trans hp
  | taken _ _ _ => rcases work_pc mc { l with chunk_maced := false } _ with h | h <;> exact nomatch h.symm.trans hp
  | full _ _ => exact hl code hp
  | macFull _ _ => exact hl code hp
  | doneFull _ _ => exact hl code hp
  | noTail hpc hf =>
    obtain ⟨c, hc, -⟩ := hS.last (Or.inl hpc)
    exact nomatch hf.symm.trans hc
  | notFinal hpc hf hd =>
    obtain ⟨c, hc, hdone⟩ := hS.last (Or.inr hpc)
    cases hf.symm.trans hc
    exact hd hdone
  | doneNotQueued hpc _ hn => exact hn (hroom (Or.inr (Or.inr hpc)))
  | _ => cases hp

theorem length_generateMAC {ins outs : List Chunk} {ctx : sk.Ctx} (h : generateMAC mc ctx ins = some outs) :
    outs.length ≤ ins.length + 1 := by
  induction ins generalizing ctx outs with
  | nil => cases h
  | cons c cs ih =>
    rw [generateMAC] at h
    split at h
    · cases h
      simp
    · split at h
      · obtain ⟨os, hos, rfl⟩ := Option.map_eq_some_iff.mp h
        exact Nat.succ_le_succ (ih hos)
      · cases h

theorem continues (hin : inq.locked = false) (hlock : out.locked = false) (hS : Sure l inq)
    (hp : l.pc ≠ .returned) : ∃ r, step mc l fl inq out = some r := by
  obtain ⟨pc, ctx, cm, uc, mch⟩ := l
  cases pc with
  | guard1 => cases hf : inq.front <;> simp [step, hf]
  | guard2 =>
    obtain ⟨c, hf⟩ := Option.ne_none_iff_exists'.mp (hS.front rfl)
    simp [step, hf]
  | guard3 => cases hf : inq.front <;> simp [step, hf]
  | fetch => cases hf : inq.front <;> simp [step, hin, hf]
  | enque => cases hq : uc.bind fun c => out.enque c <;> simp [step, hlock, hq]
  | tail1 => cases hf : inq.front <;> simp [step, hf]
  | tail2 =>
    obtain ⟨c, hf, -⟩ := hS.last (Or.inr rfl)
    simp [step, hf]
  | enqueMac => cases hq : mch.bind fun c => out.enque c <;> simp [step, hlock, hq]
  | queueDone => cases hq : out.queueDone <;> simp [step, hlock, hq]
  | returned => exact absurd rfl hp
  | _ => exact ⟨_, rfl⟩

end GenerateThread

namespace WriteThread

variable {l : Local} {inq : Queue} {ins : List Chunk} {total : List Byte}

/-- A writer that goes round has something coming. -/
theorem Idle.awaits (hI : Idle l inq) (h : Rest none l ins total) : ins ≠ [] := by
  rintro rfl
  obtain ⟨hn, -, hp⟩ := hI
  rcases hp with hp | hp | hp | hp | hp <;> rw [Rest, hp] at h <;> simp [hn, asyncWrite, reached] at h

end WriteThread

namespace EncryptRun

variable {J : Job}

/-! ### Runs in which nothing fails -/

/-- No call fails, and `DONE` is not put out between the two looks of `generateMAC`. -/
def Smooth (s : State J) (a : Thread × Outcome) : Prop :=
  a.2 = .success ∧ (a.1 = .crypt → s.crypt.pc = .queueDone → s.mac.pc = .guard3 → s.mac_queue.front ≠ none)

instance (s : State J) (a : Thread × Outcome) : Decidable (Smooth s a) := by
  unfold Smooth; infer_instance

/-- There is no error, and no thread is about to set one. -/
structure Clean (s : State J) : Prop where
  error : s.fl.error = none
  read : ∀ code, s.read.pc ≠ .fail code
  crypt : s.crypt.pc ≠ .headerFail
  mac : ∀ code, s.mac.pc ≠ .fail code
  sure : GenerateThread.Sure s.mac s.mac_queue
  write : ¬ WriteThread.Failing s.write
  waits : Waits s

theorem start_clean {fs : FileSystem} {s₀ : State J} (h : start J fs = some s₀) : Clean s₀ := by
  have hW := start_waits h
  unfold start at h
  split at h <;> cases h
  exact
    { error := rfl
      read := nofun
      crypt := nofun
      mac := nofun
      sure := GenerateThread.sure_of_ne nofun nofun nofun
      write := by rintro (⟨code, h⟩ | h) <;> cases h
      waits := hW }

section Step

variable {image : List Byte} {s s' : State J} {a : Thread × Outcome} {t : Thread}

/-- Until all have returned the threads run undisturbed. -/
theorem Clean.live (hC : Clean s) (hI : Inv image s) (hO : Order s) (hret : ¬ Returned s) : Live s := by
  refine ⟨?_, hC.error⟩
  by_contra hrun
  have hw := hI.stopped (by simpa using hrun)
  obtain ⟨hr, hc, hm, -⟩ := hO.calm (by unfold WriteThread.Past; rw [hw]; exact hC.error)
  exact hret ⟨hr, hc, hm, hw⟩

theorem Clean.not_fails (hC : Clean s) (t : Thread) : ¬ Fails s t := by
  intro hf
  cases t with
  | read =>
    cases hp : s.read.pc with
    | fail code => exact hC.read code hp
    | _ => simp [Fails, hp] at hf
  | crypt =>
    cases hp : s.crypt.pc with
    | fail code => exact hC.waits.started code hp
    | headerFail => exact hC.crypt hp
    | _ => simp [Fails, hp] at hf
  | mac =>
    cases hp : s.mac.pc with
    | fail code => exact hC.mac code hp
    | _ => simp [Fails, hp] at hf
  | write =>
    cases hp : s.write.pc with
    | fail code => exact hC.write (Or.inl ⟨code, hp⟩)
    | writeFail => exact hC.write (Or.inr hp)
    | _ => simp [Fails, hp] at hf

theorem Clean.unstuck (hC : Clean s) (hok : Smooth s a) : Unstuck s a :=
  ⟨fun _ _ => hok.1, hok.2, fun _ hf => absurd hf (hC.not_fails a.1)⟩

theorem Clean.step (hstep : EncryptRun.step s a = some s') (hok : Smooth s a) (hI : Inv image s) (hO : Order s)
    (hsize : J.file ≠ []) (hC : Clean s) : Clean s' := by
  have hW : Waits s' := hC.waits.step hstep (hC.unstuck hok) hI hO
  have herr : s'.fl.error = none := by
    by_contra herr
    exact hC.not_fails a.1 ((moves_of_step hstep).fails hI hC.waits.steady hC.error herr)
  obtain ⟨t, o⟩ := a
  cases t <;> obtain ⟨⟨_, _⟩, hx, rfl⟩ := Option.map_eq_some_iff.mp hstep
  case read =>
    refine { hC with error := herr, waits := hW, read := fun code hf => ?_ }
    rcases (Reader.step_fail hx hI.readReady hf).2 with hs | ho
    · simp [reader, encryptReader, hsize] at hs
    · exact ho hok.1
  case crypt =>
    have hm := EncryptThread.moves_of_step hx
    have hlive : Live s := hC.live hI hO fun hret => hm.not_returned hret.2.1
    obtain ⟨x, e, g, -, he, -, -, -⟩ := hI.flow hlive
    refine { hC with error := herr, waits := hW, crypt := EncryptThread.step_headerFail hx he, sure := ?_ }
    have hprod := hm.produces
    have hroom : EncryptThread.put s.crypt ≠ none → s.mac_queue.HasRoom := fun h =>
      hI.cryptReady (EncryptThread.pc_of_put h)
    refine ⟨fun hp => ?_, fun hp => ?_⟩
    · obtain ⟨c, hc⟩ := Option.ne_none_iff_exists'.mp (hC.sure.front hp)
      rw [hprod.front hroom hc]
      exact Option.some_ne_none c
    · obtain ⟨c, hc, hd⟩ := hC.sure.last hp
      exact ⟨c, hprod.front hroom hc, hd⟩
  case mac =>
    have hm := GenerateThread.moves_of_step hx
    exact { hC with
      error := herr
      waits := hW
      mac := hm.not_fail hI.macReady hC.sure hC.mac
      sure := hm.sure hC.sure }
  case write =>
    exact { hC with error := herr, waits := hW, write := fun hf => WriteThread.step_failing hx hf hok.1 }

end Step

/-! ### What is left to do -/

/-- The thread drives. -/
def Drives : Thread → State J → Prop
  | .read, s => Reader.Drives s.read s.crypto_queue
  | .crypt, s => EncryptThread.Drives s.crypt s.crypto_queue s.mac_queue
  | .mac, s => GenerateThread.Drives s.mac s.mac_queue s.write_queue
  | .write, s => WriteThread.Drives s.write s.write_queue

/-- The thread has returned. -/
def Ended : Thread → State J → Prop
  | .read, s => s.read.pc = .returned
  | .crypt, s => s.crypt.pc = .returned
  | .mac, s => s.mac.pc = .returned
  | .write, s => s.write.pc = .returned

/-- `Flow` with what each thread has still to put out. -/
def Course (image : List Byte) (s : State J) (x e g : List Chunk) : Prop :=
  (reader J).Rest s.read x ∧
    EncryptThread.Rest J.tf J.tf_key s.crypt (s.crypto_queue.elements ++ x) e ∧
    DoneLast (s.mac_queue.elements ++ e) ∧
    GenerateThread.Rest J.mac_context s.mac (s.mac_queue.elements ++ e) g ∧
    WriteThread.Rest none s.write (s.write_queue.elements ++ g) image

/-- The laps that are left, and the laps that each chunk takes. -/
def toGo (s : State J) (x e g : List Chunk) : ℕ :=
  (Reader.lap s.read + 4 * x.length) + (EncryptThread.lap s.crypt s.crypto_queue s.mac_queue + 8 * e.length) +
    (GenerateThread.lap s.mac s.mac_queue + 8 * g.length) +
    (WriteThread.lap s.write s.write_queue + 16 * (WriteThread.waiting s.write s.write_queue + g.length))

section Step

variable {image : List Byte} {s s' : State J} {a : Thread × Outcome} {t : Thread} {x e g : List Chunk}

/-- What a writer without a size can write, it is given something to write. -/
theorem filled_of_rest {l : WriteThread.Local} {inq : Queue}
    (h : WriteThread.Rest none l (inq.elements ++ g) image) : WriteThread.Filled l inq := by
  have hdata : ∀ {b : ℕ} {c : Chunk} {cs : List Chunk} {bs : List Byte},
      WriteThread.asyncWrite none b (c :: cs) = some bs → c.action = .DONE ∨ c.data ≠ [] := by
    intro b c cs bs hbs
    by_contra hne
    obtain ⟨hd, hnil⟩ := not_or.mp hne
    rw [WriteThread.asyncWrite, if_neg (by simp [hd, WriteThread.reached]), if_pos (not_not.mp hnil)] at hbs
    cases hbs
  obtain ⟨pc, wc, bw, btw, w⟩ := l
  have hunsized : ¬ (pc = .testValid ∨ pc = .testSize) := by
    rintro (rfl | rfl) <;> exact h.1 rfl
  refine ⟨fun hp c hc => ?_, fun hp => ?_, fun hp => absurd hp hunsized⟩
  · cases hc
    cases hp.resolve_right hunsized
    obtain ⟨bs, hbs, -⟩ := h
    exact hdata hbs
  · cases hp
    obtain ⟨hn, bs, hbs, -⟩ := h
    refine ⟨hn, fun c hf => ?_⟩
    rw [front_eq_some hf, List.cons_append] at hbs
    exact hdata hbs

theorem Course.step (h : Moves s t s') (hI : Inv image s) (hO : Order s) (hC : Clean s) (hlive : Live s)
    (hlive' : Live s') (hF : Course image s x e g) : ∃ x' e' g', Course image s' x' e' g' ∧
      (toGo s' x' e' g' < toGo s x e g ∨ toGo s' x' e' g' ≤ toGo s x e g ∧ ¬ Drives t s) := by
  obtain ⟨hx, he, hlast, hg, hw⟩ := hF
  cases h with
  | @read l fl out h =>
    obtain ⟨x', hx', hcons⟩ := h.rest hlive.1 hlive.2 hlive'.2 hI.readReady hx
    refine ⟨x', e, g, ⟨hx', by rw [hcons]; exact he, hlast, hg, hw⟩, ?_⟩
    have hlen : out.elements.length + x'.length = s.crypto_queue.elements.length + x.length := by
      rw [← List.length_append, hcons, List.length_append]
    have hcrypt : EncryptThread.lap s.crypt out s.mac_queue ≤
        EncryptThread.lap s.crypt s.crypto_queue s.mac_queue :=
      EncryptThread.lap_le s.crypt (h.produces.nonempty fun hp => hI.readReady (Reader.pc_of_put hp)) id
    have hhand : s.read.pc = .enque → s.read.data_chunk ≠ none := fun hp hn => by
      rw [Reader.Rest, hp] at hx
      obtain ⟨c, ds, hc, -⟩ := hx
      cases hc.symm.trans hn
    rcases h.laps hI.readReady hhand with hlt | ⟨heq, rfl, hno⟩
    · refine Or.inl ?_
      simp only [toGo]
      omega
    · refine Or.inr ⟨?_, hno⟩
      simp only [toGo]
      omega
  | @crypt l fl inq out h =>
    obtain ⟨e', he', hcons⟩ := h.rest hlive.1 hlive.2 hlive'.2 hI.cryptReady hI.fresh hI.room he
    refine ⟨x, e', g, ⟨hx, he', by rw [hcons]; exact hlast, by rw [hcons]; exact hg, hw⟩, ?_⟩
    have hlen : out.elements.length + e'.length = s.mac_queue.elements.length + e.length := by
      rw [← List.length_append, hcons, List.length_append]
    have hmac : GenerateThread.lap s.mac out ≤ GenerateThread.lap s.mac s.mac_queue :=
      GenerateThread.lap_le s.mac (h.produces.nonempty fun hp => hI.cryptReady (EncryptThread.pc_of_put hp))
    rcases h.laps hI.cryptReady he with hlt | ⟨heq, rfl, hno⟩
    · refine Or.inl ?_
      simp only [toGo]
      omega
    · refine Or.inr ⟨?_, hno⟩
      simp only [toGo]
      omega
  | @mac l fl inq out h =>
    obtain ⟨g', hg', hcons⟩ := h.rest hlive'.2 hI.macReady hlast hg
    have hlast' : DoneLast (inq.elements ++ e) := by
      rcases h.takes with h' | h' <;> rw [h']
      · exact hlast
      · cases hel : s.mac_queue.elements with
        | nil => rw [hel] at hlast; simpa [hel] using hlast
        | cons c cs => rw [hel] at hlast; simpa [hel] using hlast.tail
    refine ⟨x, e, g', ⟨hx, he, hlast', hg', by rw [hcons]; exact hw⟩, ?_⟩
    have hlen : out.elements.length + g'.length = s.write_queue.elements.length + g.length := by
      rw [← List.length_append, hcons, List.length_append]
    have hcrypt : EncryptThread.lap s.crypt s.crypto_queue inq ≤
        EncryptThread.lap s.crypt s.crypto_queue s.mac_queue :=
      EncryptThread.lap_le s.crypt id (HasRoom.of_takes h.takes)
    have hwrite : WriteThread.lap s.write out ≤ WriteThread.lap s.write s.write_queue :=
      WriteThread.lap_le s.write (h.produces.nonempty fun hp => hI.macReady (GenerateThread.pc_of_put hp))
    have hhand : s.mac.pc = .enque → s.mac.update_chunk ≠ none := fun hp hn => by
      rw [GenerateThread.Rest, hp] at hg
      obtain ⟨-, c, os, hc, -⟩ := hg
      cases hc.symm.trans hn
    rcases h.laps hI.macReady hC.waits.wary hC.waits.steady hO.marked hhand with hlt | ⟨heq, rfl, hno⟩
    · refine Or.inl ?_
      simp only [toGo, WriteThread.waiting]
      omega
    · refine Or.inr ⟨?_, hno⟩
      simp only [toGo, WriteThread.waiting]
      omega
  | write h =>
    have hw' := h.rest hlive'.1 hlive.1 hlive.2 hlive'.2 rfl (fun _ h => by cases h) hw
    refine ⟨x, e, g, ⟨hx, he, hlast, hg, hw'⟩, ?_⟩
    rcases h.laps (filled_of_rest hw) with hlt | ⟨heq, hno⟩
    · refine Or.inl ?_
      simp only [toGo]
      omega
    · refine Or.inr ⟨?_, hno⟩
      simp only [toGo]
      omega

end Step

/-! ### Every round brings the end nearer -/

/-- No error has come up, and fewer than `n` laps are left. -/
structure Within (image : List Byte) (n : ℕ) (s : State J) : Prop where
  inv : Inv image s
  order : Order s
  clean : Clean s
  left : Live s → ∃ x e g, Course image s x e g ∧ toGo s x e g < n

section Rounds

variable {image : List Byte} {s s' : State J} {a : Thread × Outcome} {t : Thread} {n : ℕ}

theorem Within.live (h : Within image n s) (hret : ¬ Returned s) : Live s := h.clean.live h.inv h.order hret

theorem Moves.not_ended (h : Moves s t s') : ¬ Ended t s := by
  cases h with
  | read h => exact h.not_returned
  | crypt h => exact h.not_returned
  | mac h => exact h.not_returned
  | write h => exact h.not_returned

theorem Returned.ended (h : Returned s) (t : Thread) : Ended t s := by
  cases t with
  | read => exact h.1
  | crypt => exact h.2.1
  | mac => exact h.2.2.1
  | write => exact h.2.2.2

/-- What one thread does keeps another one driving. -/
theorem Drives.stays (h : Moves s t s') (hI : Inv image s) {i : Thread} (hi : t ≠ i) (hD : Drives i s) :
    Drives i s' := by
  cases h with
  | read h =>
    have hne := h.produces.nonempty fun hp => hI.readReady (Reader.pc_of_put hp)
    cases i with
    | read => exact absurd rfl hi
    | crypt => exact EncryptThread.Drives.mono hD hne id
    | mac => exact hD
    | write => exact hD
  | crypt h =>
    have hne := h.produces.nonempty fun hp => hI.cryptReady (EncryptThread.pc_of_put hp)
    cases i with
    | read => exact Reader.Drives.mono hD (HasRoom.of_takes h.takes)
    | crypt => exact absurd rfl hi
    | mac => exact GenerateThread.Drives.mono hD hne id
    | write => exact hD
  | mac h =>
    have hne := h.produces.nonempty fun hp => hI.macReady (GenerateThread.pc_of_put hp)
    cases i with
    | read => exact hD
    | crypt => exact EncryptThread.Drives.mono hD id (HasRoom.of_takes h.takes)
    | mac => exact absurd rfl hi
    | write => exact WriteThread.Drives.mono hD hne
  | write h =>
    cases i with
    | read => exact hD
    | crypt => exact hD
    | mac => exact GenerateThread.Drives.mono hD id (HasRoom.of_takes h.takes)
    | write => exact absurd rfl hi

/-- As long as not all have returned some thread drives: one that is idle has an
empty queue before it, so the thread before it has room. -/
theorem Within.driver (h : Within image n s) (hret : ¬ Returned s) : ∃ i, Drives i s := by
  obtain ⟨x, e, g, ⟨hx, he, -, hg, hw⟩, -⟩ := h.left (h.live hret)
  obtain ⟨⟨hcc, -⟩, ⟨hmc, -⟩, hwc, -⟩ := h.order.opens
  have hroom : ∀ {q : Queue}, q.capacity = J.que_size → q.elements = [] → q.HasRoom := fun {q} hq hel => by
    have := h.inv.room
    rw [HasRoom, hel, hq, ← hmc]
    exact this
  by_contra hno
  have hidle : ∀ i, ¬ Drives i s := fun i hi => hno ⟨i, hi⟩
  -- the writer has nothing to write
  have hwret : s.write.pc ≠ .returned := fun hp => by
    obtain ⟨h1, h2, h3, -⟩ := h.order.calm (by unfold WriteThread.Past; rw [hp]; exact h.clean.error)
    exact hret ⟨h1, h2, h3, hp⟩
  have hwI : WriteThread.Idle s.write s.write_queue := by
    by_contra hI
    exact hidle .write ⟨hwret, hI⟩
  -- so `generateMAC` has something to put out, and room
  have hmret : s.mac.pc ≠ .returned := fun hp => by
    rw [GenerateThread.Rest, hp] at hg
    exact hwI.awaits hw (by rw [hwI.2.1, show g = [] from hg]; rfl)
  have hmI : GenerateThread.Idle s.mac s.mac_queue := by
    by_contra hI
    exact hidle .mac ⟨hmret, hroom hwc hwI.2.1, hI⟩
  -- nothing has come from `encryptQueue`, so it has not returned
  have hcret : s.crypt.pc ≠ .returned := fun hp => by
    obtain ⟨c, hc, -⟩ := h.clean.waits.doneKept hp
    rw [hmI.1] at hc
    cases hc
  have hcI : EncryptThread.Idle s.crypt s.crypto_queue := by
    by_contra hI
    exact hidle .crypt ⟨hcret, hroom hmc hmI.1, hI⟩
  have hrret : s.read.pc ≠ .returned := fun hp => by
    rw [Reader.Rest, hp] at hx
    exact hcI.awaits he (by rw [hcI.2.1, show x = [] from hx]; rfl)
  exact hidle .read ⟨hrret, hroom hcc hcI.2.1⟩

/-- A thread that has not returned can take a step. -/
theorem Within.continues (h : Within image n s) (hsize : J.file ≠ []) (hret : ¬ Returned s) (ht : ¬ Ended t s) :
    ∃ s', EncryptRun.step s (t, .success) = some s' := by
  have hlive := h.live hret
  obtain ⟨x, e, g, ⟨hx, he, -, -, -⟩, -⟩ := h.left hlive
  obtain ⟨⟨-, hcl⟩, ⟨-, hml⟩, -, hwl⟩ := h.order.opens
  cases t with
  | read =>
    have hts : (reader J).tooSmall = false := by simpa [reader, encryptReader] using hsize
    have hcont : ∃ r, (reader J).step s.read s.fl s.crypto_queue .success = some r :=
      Reader.continues hcl hts hx h.clean.read ht
    obtain ⟨r, hr⟩ := hcont
    exact ⟨_, by simp only [EncryptRun.step, hr]; rfl⟩
  | crypt =>
    have hcont : ∃ r, EncryptThread.step J.tf J.tf_key s.crypt s.fl s.crypto_queue s.mac_queue .success = some r :=
      EncryptThread.continues hcl hml he ht
    obtain ⟨r, hr⟩ := hcont
    exact ⟨_, by simp only [EncryptRun.step, hr]; rfl⟩
  | mac =>
    have hcont : ∃ r, GenerateThread.step J.mac_context s.mac s.fl s.mac_queue s.write_queue = some r :=
      GenerateThread.continues hml hwl h.clean.sure ht
    obtain ⟨r, hr⟩ := hcont
    exact ⟨_, by simp only [EncryptRun.step, hr]; rfl⟩
  | write =>
    obtain ⟨r, hr⟩ := WriteThread.continues (writeParams J) s.fl s.fs hwl h.clean.waits.holding ht
    exact ⟨_, by simp only [EncryptRun.step, hr]; rfl⟩

theorem Within.step (h : Within image n s) (hsize : J.file ≠ []) (hok : Smooth s a)
    (hstep : EncryptRun.step s a = some s') :
    ∃ m, m ≤ n ∧ Within image m s' ∧ (Drives a.1 s → m < n) := by
  have hm := moves_of_step hstep
  have hlive : Live s := h.live fun hret => hm.not_ended (hret.ended a.1)
  obtain ⟨x, e, g, hF, hlt⟩ := h.left hlive
  have hnext : ∀ {m : ℕ}, (Live s' → ∃ x e g, Course image s' x e g ∧ toGo s' x e g < m) → Within image m s' :=
    fun hleft => ⟨h.inv.step hm, h.order.step hm h.inv, h.clean.step hstep hok h.inv h.order hsize, hleft⟩
  by_cases hlive' : Live s'
  · obtain ⟨x', e', g', hF', hle⟩ := hF.step hm h.inv h.order h.clean hlive hlive'
    refine ⟨toGo s' x' e' g' + 1, ?_, hnext fun _ => ⟨x', e', g', hF', Nat.lt_succ_self _⟩, fun hD => ?_⟩
    · rcases hle with hle | ⟨hle, -⟩ <;> omega
    · rcases hle with hle | ⟨-, hno⟩
      · omega
      · exact absurd hD hno
  · exact ⟨n - 1, Nat.sub_le n 1, hnext fun hl => absurd hl hlive', fun _ => by omega⟩

theorem driven (hsize : J.file ≠ []) :
    Lts.Driven (step (J := J)) Smooth Prod.fst Ended Returned (Within image) Drives where
  final := fun s a hret => by
    by_contra hne
    obtain ⟨s', hs'⟩ := Option.ne_none_iff_exists'.mp hne
    exact (moves_of_step hs').not_ended (hret.ended a.1)
  driven := fun n s h hret => h.driver hret
  awake := fun n s i _ hD => by
    cases i with
    | read => exact hD.1
    | crypt => exact hD.1
    | mac => exact hD.1
    | write => exact hD.1
  stays := fun n s a s' i h _ hs hi hD => hD.stays (moves_of_step hs) h.inv hi
  lowers := fun n s a s' h hok hs => h.step hsize hok hs

/-- A thread that drives can be given its turn: `encryptQueue` at once, or after
the second look of `generateMAC`. -/
theorem Within.turn (h : Within image n s) (hsize : J.file ≠ []) (hret : ¬ Returned s) :
    ∃ i as s', Drives i s ∧ Lts.Path EncryptRun.step Smooth s as s' ∧ ∃ a ∈ as, a.1 = i := by
  obtain ⟨i, hD⟩ := h.driver hret
  have hawake := (driven hsize).awake n s i h hD
  by_cases hok : Smooth s (i, .success)
  · obtain ⟨s', hs'⟩ := h.continues hsize hret hawake
    exact ⟨i, [(i, .success)], s', hD, .cons hok hs' .nil, (i, .success), List.mem_singleton_self _, rfl⟩
  · have hc : i = .crypt ∧ s.crypt.pc = .queueDone ∧ s.mac.pc = .guard3 ∧ s.mac_queue.front = none := by
      simpa [Smooth] using hok
    obtain ⟨rfl, hcp, hmp, hf⟩ := hc
    have hs₁ : EncryptRun.step s (.mac, .success) = some { s with mac := { s.mac with pc := .guard1 } } := by
      simp [EncryptRun.step, GenerateThread.step, hmp, hf]
    have hok₁ : Smooth s (.mac, .success) := ⟨rfl, fun h => by cases h⟩
    obtain ⟨m, -, h₁, -⟩ := h.step hsize hok₁ hs₁
    obtain ⟨s', hs'⟩ := h₁.continues (t := .crypt) hsize (fun hret => by cases hcp.symm.trans hret.2.1) hawake
    have hok' : Smooth { s with mac := { s.mac with pc := .guard1 } } (.crypt, .success) :=
      ⟨rfl, fun _ _ h => by cases h⟩
    exact ⟨.crypt, [(.mac, .success), (.crypt, .success)], s', hD, .cons hok₁ hs₁ (.cons hok' hs' .nil),
      (.crypt, .success), by simp, rfl⟩

end Rounds

/-! ### The bound at the start -/

theorem start_within {fs : FileSystem} {s₀ : State J}
    (hlen : ∀ iv, J.args.iv = some iv → iv.length = J.state_size.words) (hcap : 0 < J.que_size)
    (h0 : start J fs = some s₀) :
    ∃ image, Within image (36 * (pieceCount J.file.length J.max_chunk + 4)) s₀ := by
  obtain ⟨⟨iv, hiv⟩, hsize⟩ := start_some h0
  obtain ⟨s₁, hs₁, hI⟩ := start_inv hiv (hlen iv hiv) hsize hcap fs
  cases h0.symm.trans hs₁
  refine ⟨J.image iv, hI, start_order hlen hcap h0, start_clean h0, fun hlive => ?_⟩
  obtain ⟨q, hq, -, -, hel⟩ := queueHeader_eq hiv (hlen iv hiv) hsize hcap
  obtain rfl : State.init J q fs = s₀ := by
    rw [start, hq] at h0
    exact Option.some.inj h0
  obtain ⟨x, e, g, hx, he, hlast, hg, hw⟩ := hI.flow hlive
  refine ⟨x, e, g, ⟨hx, he, hlast, hg, hw⟩, ?_⟩
  -- every thread puts out a chunk for each one it is given, and the tag or `DONE`
  have hxlen : x.length = pieceCount J.file.length J.max_chunk + 1 := by
    obtain ⟨-, ds, hds, rfl⟩ := hx
    have hplan := encryptReader_reads (s := J.state_size) J.max_chunk_pos (J.reads J.file.length)
    rw [hds.unique hplan]
    simp [encryptPlan]
  have helen : e.length ≤ x.length + 1 := by
    have := EncryptThread.length_encryptQueue he.2
    rwa [State.init, hel, List.length_append, List.length_singleton, Nat.add_comm] at this
  have hglen : g.length ≤ e.length + 1 := by
    rcases hg with ⟨-, hg⟩ | ⟨⟨⟨c, hc, -⟩, -⟩, -⟩
    · exact GenerateThread.length_generateMAC hg
    · cases hc
  show 5 + 4 * x.length + (9 + 8 * e.length) + (9 + 8 * g.length) + (14 + 16 * (0 + g.length)) < _
  omega

/-! ### The end of the encryption -/

end EncryptRun

end Threefizer
