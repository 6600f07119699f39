/-
# The threads of a decryption after a stop

The writer of a decryption clears `running` when it is done, and the others may
not have come to their ends yet. What each of them still puts out is then what
it would have put out undisturbed, if that is nothing but `DONE`. The rules here
are about one thread each.
-/
import Threefizer.Laps
import Threefizer.Leftover
import Threefizer.RunThreefizer

namespace Threefizer

open Words Queue

namespace Reader

variable {R : Reader} {l l' : Local} {fl fl' : Flags} {out out' : Queue} {cs : List Chunk}

/-- Only one step looks at `running`. -/
theorem Moves.undisturbed (h : R.Moves l fl out l' fl' out') (hp : l.pc ≠ .testRunning) :
    R.Moves l { fl with running := true } out l' { fl' with running := true } out' := by
  cases h with
  | tooSmall h1 h2 => exact .tooSmall h1 h2
  | opened h1 h2 => exact .opened h1 h2
  | notOpened h1 h2 => exact .notOpened h1 h2
  | failed h1 => exact .failed h1
  | running h1 _ => exact absurd h1 hp
  | stopped h1 _ => exact absurd h1 hp
  | kept h1 h2 h3 h4 => exact .kept h1 h2 h3 h4
  | read h1 h2 h3 h4 h5 => exact .read h1 h2 h3 h4 h5
  | finished h1 h2 => exact .finished h1 h2
  | full h1 h2 => exact .full h1 h2
  | room h1 h2 => exact .room h1 h2
  | queued h1 h2 h3 h4 => exact .queued h1 h2 h3 h4
  | notQueued h1 h2 h3 => exact .notQueued h1 h2 h3
  | doneFull h1 h2 => exact .doneFull h1 h2
  | doneRoom h1 h2 => exact .doneRoom h1 h2
  | doneQueued h1 h2 h3 => exact .doneQueued h1 h2 h3
  | doneNotQueued h1 h2 h3 => exact .doneNotQueued h1 h2 h3

/-- A reader that is stopped has nothing but `DONE` to put out, if all is read. -/
theorem Moves.rest_stopped (h : R.Moves l fl out l' fl' out') (herr : fl.error = none) (herr' : fl'.error = none)
    (hready : Ready l out) (hR : R.Rest l cs)
    (hstop : l.pc = .testRunning → fl.running = false → cs = [doneChunk]) :
    ∃ cs', R.Rest l' cs' ∧ out'.elements ++ cs' = out.elements ++ cs := by
  by_cases hp : l.pc = .testRunning
  · cases hrun : fl.running with
    | true => exact h.rest hrun herr herr' hready hR
    | false =>
      cases h with
      | running _ hr => cases hrun.symm.trans hr
      | stopped _ _ => exact ⟨cs, hstop hp hrun, rfl⟩
      | tooSmall hpc _ | opened hpc _ | notOpened hpc _ | failed hpc | kept hpc _ _ _ | read hpc _ _ _ _
      | finished hpc _ | full hpc _ | room hpc _ | queued hpc _ _ _ | notQueued hpc _ _ | doneFull hpc _
      | doneRoom hpc _ | doneQueued hpc _ _ | doneNotQueued hpc _ _ => cases hp.symm.trans hpc
  · exact (h.undisturbed hp).rest rfl herr herr' hready hR

end Reader

namespace DecryptThread

variable {tf : Threefish} {tf_key : ThreefishKey} {l l' : Local} {fl fl' : Flags} {inq inq' out out' : Queue}
  {x d : List Chunk}

theorem Moves.undisturbed (h : Moves tf tf_key l fl inq out l' fl' inq' out') (hp : l.pc ≠ .testRunning) :
    Moves tf tf_key l { fl with running := true } inq out l' { fl' with running := true } inq' out' := by
  cases h with
  | allocated h1 => exact .allocated h1
  | notAllocated h1 => exact .notAllocated h1
  | failed h1 => exact .failed h1
  | running h1 _ => exact absurd h1 hp
  | stopped h1 _ => exact absurd h1 hp
  | empty h1 h2 h3 => exact .empty h1 h2 h3
  | kept h1 h2 h3 h4 => exact .kept h1 h2 h3 h4
  | error h1 h2 => exact .error h1 h2
  | nothing h1 h2 h3 => exact .nothing h1 h2 h3
  | taken h1 h2 h3 h4 => exact .taken h1 h2 h3 h4
  | queued h1 h2 h3 h4 => exact .queued h1 h2 h3 h4
  | notQueued h1 h2 h3 => exact .notQueued h1 h2 h3
  | doneFull h1 h2 => exact .doneFull h1 h2
  | doneRoom h1 h2 => exact .doneRoom h1 h2
  | doneQueued h1 h2 h3 => exact .doneQueued h1 h2 h3
  | doneNotQueued h1 h2 h3 => exact .doneNotQueued h1 h2 h3

/-- A thread that is stopped has nothing but `DONE` to put out, if all is decrypted. -/
theorem Moves.rest_stopped (h : Moves tf tf_key l fl inq out l' fl' inq' out') (herr : fl.error = none)
    (herr' : fl'.error = none) (hready : Ready l out) (hR : Rest tf tf_key l (inq.elements ++ x) d)
    (hstop : l.pc = .testRunning → fl.running = false → d = [doneChunk]) :
    ∃ d', Rest tf tf_key l' (inq'.elements ++ x) d' ∧ out'.elements ++ d' = out.elements ++ d := by
  by_cases hp : l.pc = .testRunning
  · cases hrun : fl.running with
    | true => exact h.rest hrun herr herr' hready hR
    | false =>
      cases h with
      | running _ hr => cases hrun.symm.trans hr
      | stopped _ _ => exact ⟨d, hstop hp hrun, rfl⟩
      | allocated hpc | notAllocated hpc | failed hpc | empty hpc _ _ | kept hpc _ _ _ | error hpc _
      | nothing hpc _ _ | taken hpc _ _ _ | queued hpc _ _ _ | notQueued hpc _ _ | doneFull hpc _
      | doneRoom hpc _ | doneQueued hpc _ _ | doneNotQueued hpc _ _ => cases hp.symm.trans hpc
  · exact (h.undisturbed hp).rest rfl herr herr' hready hR

/-- `DONE` is the last chunk put out, and the only one. -/
theorem decryptQueue_last {ins outs : List Chunk} {st : DecryptState} (h : decryptQueue tf tf_key st ins = some outs) :
    ∃ es, outs = es ++ [doneChunk] ∧ ∀ e ∈ es, e.action ≠ .DONE := by
  induction ins generalizing st outs with
  | nil => cases h
  | cons c cs ih =>
    rw [decryptQueue] at h
    split at h
    · cases h
      exact ⟨[], rfl, by simp⟩
    next hc =>
      split at h
      · exact ih h
      · obtain ⟨⟨e, st'⟩, he, hmap⟩ := Option.bind_eq_some_iff.mp h
        obtain ⟨os, hos, rfl⟩ := Option.map_eq_some_iff.mp hmap
        obtain ⟨es, rfl, hes⟩ := ih hos
        exact ⟨e :: es, rfl, List.forall_mem_cons.mpr ⟨(decryptChunk_action he).1 ▸ hc, hes⟩⟩

/-- If no data comes out, none goes in: nothing but `DONE` behind the header. -/
theorem decryptQueue_done {ins outs : List Chunk} {st : DecryptState} (h : decryptQueue tf tf_key st ins = some outs)
    (hout : ∀ c ∈ outs, c.action = .DONE) (hh : st.header = false) (hlast : DoneLast ins) :
    ∀ c ∈ ins, c.action = .DONE := by
  cases ins with
  | nil => cases h
  | cons c cs =>
    by_cases hc : c.action = .DONE
    · obtain rfl := hlast [] c cs rfl hc
      exact List.forall_mem_singleton.mpr hc
    · rw [decryptQueue, if_neg hc, if_neg (by simp [hh])] at h
      obtain ⟨⟨e, st'⟩, he, hmap⟩ := Option.bind_eq_some_iff.mp h
      obtain ⟨os, -, rfl⟩ := Option.map_eq_some_iff.mp hmap
      exact absurd (hout e List.mem_cons_self) ((decryptChunk_action he).1 ▸ hc)

/-- The data put out is as long as the data put in. -/
theorem decryptQueue_sizes {p : ℕ → Prop} {ins outs : List Chunk} {st : DecryptState}
    (h : decryptQueue tf tf_key st ins = some outs) (hin : ∀ c ∈ ins, c.action ≠ .DONE → p c.data_size) :
    ∀ c ∈ outs, c.action ≠ .DONE → p c.data_size := by
  induction ins generalizing st outs with
  | nil => cases h
  | cons c cs ih =>
    obtain ⟨hc, hcs⟩ := List.forall_mem_cons.mp hin
    rw [decryptQueue] at h
    split at h
    · cases h
      simp [doneChunk]
    next hd =>
      split at h
      · exact ih h hcs
      · obtain ⟨⟨e, st'⟩, he, hmap⟩ := Option.bind_eq_some_iff.mp h
        obtain ⟨os, hos, rfl⟩ := Option.map_eq_some_iff.mp hmap
        obtain ⟨n, -, hx⟩ := Option.map_eq_some_iff.mp he
        refine List.forall_mem_cons.mpr ⟨fun _ => ?_, ih hos hcs⟩
        cases hx
        exact hc hd

theorem length_decryptQueue {ins outs : List Chunk} {st : DecryptState}
    (h : decryptQueue tf tf_key st ins = some outs) : outs.length ≤ ins.length := by
  induction ins generalizing st outs with
  | nil => cases h
  | cons c cs ih =>
    rw [decryptQueue] at h
    split at h
    · cases h
      simp
    · split at h
      · exact Nat.le_succ_of_le (ih h)
      · obtain ⟨p, -, hmap⟩ := Option.bind_eq_some_iff.mp h
        obtain ⟨os, hos, rfl⟩ := Option.map_eq_some_iff.mp hmap
        exact Nat.succ_le_succ (ih hos)

theorem continues (hin : inq.locked = false) (hlock : out.locked = false) (hR : Rest tf tf_key l (inq.elements ++ x) d)
    (hp : l.pc ≠ .returned) : ∃ r, step tf tf_key l fl inq out .success = some r := by
  obtain ⟨pc, st, de, dc⟩ := l
  cases pc with
  | testError =>
    by_cases he : fl.error = none
    · cases dc with
      | none => simp [step, he]
      | some c =>
        obtain ⟨hn, -⟩ | ⟨hh, hde, c', os, hc, hd, -⟩ := hR
        · cases hn
        · cases hc
          cases hde
          simp [step, he, work, hd, show st.header = false from hh]
    · simp [step, he]
  | fetch =>
    cases hf : inq.front with
    | none => simp [step, hin, hf]
    | some c =>
      obtain ⟨-, hq⟩ := hR
      rw [front_eq_some hf, List.cons_append, decryptQueue] at hq
      by_cases hd : c.action = .DONE
      · simp [step, hin, hf, work, hd]
      · by_cases hh : st.header = true
        · simp [step, hin, hf, work, hd, hh]
        · rw [if_neg hd, if_neg hh] at hq
          obtain ⟨p, he, -⟩ := Option.bind_eq_some_iff.mp hq
          simp [step, hin, hf, work, hd, hh, he]
  | tryEnque => cases hq : dc.bind fun c => out.enque c <;> simp [step, hlock, hq]
  | queueDone => cases hq : out.queueDone <;> simp [step, hlock, hq]
  | returned => exact absurd rfl hp
  | _ => exact ⟨_, rfl⟩

/-- A thread that goes round has something coming. -/
theorem Unfed.awaits (hU : Unfed l inq) (hR : Rest tf tf_key l (inq.elements ++ x) d) : x ≠ [] := by
  rintro rfl
  obtain ⟨hn, hq, hp⟩ := hU
  rcases hp with hp | hp | hp <;> rw [Rest, hp] at hR <;> simp [hn, hq, decryptQueue] at hR

end DecryptThread

namespace AuthThread

variable {sk : Skein} {tf : Threefish} {tf_key : ThreefishKey} {mc : MacCtx sk} {l l' : Local sk}
  {fl fl' : Flags} {inq inq' out out' : Queue} {hd m : Chunk} {final : sk.Ctx} {ins x a : List Chunk}

/-- In the second loop the tag and `DONE` are all that is still to be taken out,
and after it `DONE`, which stays where it is. -/
def Ahead (m : Chunk) (l : Local sk) (ins : List Chunk) : Prop :=
  match l.pc with
  | .macAlloc | .test2Running | .test2Error | .peek | .fetch2 => ins = [m, doneChunk]
  | .doneIsFull | .queueDone | .returned => ins = [doneChunk]
  | _ => True

theorem Ahead.settled (h : Ahead m l ins) (hS : Settled l) : ins = [doneChunk] := by
  unfold Ahead at h
  rcases hS with hp | hp | hp <;> rw [hp] at h <;> exact h

theorem ahead_work {c : Chunk} (hl : isLast c = false) : Ahead m (work mc l c) ins := by
  unfold Ahead
  rcases work_pc mc l c with h | h | h
  · simp only [work, hl, Bool.false_eq_true, if_false] at h
    split at h
    · cases h
    · rw [mac_pc] at h
      cases h
  · rw [h]; trivial
  · rw [h]; trivial

/-- An undisturbed thread leaves its first loop when it sees the tag, and its
second one when it has taken it out. -/
theorem Moves.ahead (h : Moves tf tf_key mc l fl inq out l' fl' inq' out')
    (hrun : l.pc = .testRunning → fl.running = true) (herr : fl.error = none) (hfail : ∀ code, l.pc ≠ .fail code)
    (hm : m.action = .MAC) (hR : Rest mc hd m final l (inq.elements ++ x) a) (hA : Ahead m l (inq.elements ++ x)) :
    Ahead m l' (inq'.elements ++ x) := by
  obtain ⟨pc, hdr, md, mch, ctx, cm, st⟩ := l
  cases h with
  | stopped hp hr => exact absurd ((hrun hp).symm.trans hr) (by decide)
  | kept hp _ hc =>
    cases hp
    cases hc
    obtain ⟨hn, -⟩ | ⟨-, -, c', ds, hc, hl, -⟩ := hR
    · cases hn
    · cases hc
      exact ahead_work hl
  | error _ he => exact absurd herr he
  | @taken c hp _ hf hne =>
    cases hp
    obtain ⟨-, -, ds, ⟨hds, hins⟩, -⟩ := hR
    rw [front_eq_some hf, List.cons_append] at hins
    cases ds with
    | nil =>
      obtain ⟨rfl, -⟩ := List.cons.inj hins
      exact absurd hm hne
    | cons d ds =>
      obtain ⟨rfl, -⟩ := List.cons.inj hins
      exact ahead_work (hds c List.mem_cons_self)
  | @seen c hp _ hf hmac =>
    cases hp
    obtain ⟨-, -, ds, ⟨hds, hins⟩, -⟩ := hR
    have hl : isLast c = true := by simp [isLast, hmac]
    simp only [work, hl, if_true]
    cases ds with
    | nil => exact hins
    | cons d ds =>
      rw [front_eq_some hf, List.cons_append] at hins
      obtain ⟨rfl, -⟩ := List.cons.inj hins
      exact absurd ((hds c List.mem_cons_self).symm.trans hl) (by decide)
  | @compared c hp _ hf =>
    cases hp
    have hins : inq.elements ++ x = [m, doneChunk] := hA
    rw [front_eq_some hf, List.cons_append] at hins
    obtain ⟨-, hrest⟩ := List.cons.inj hins
    unfold Ahead
    rcases compare_pc mc ⟨.fetch2, hdr, md, mch, ctx, cm, st⟩ c with h | h <;> rw [h]
    · exact hrest
    · trivial
  | failed hp => exact absurd hp (hfail _)
  | peekEmpty hp _ => rcases hp with hp | ⟨hp, -⟩ <;> cases hp <;> exact hA
  | setValid _ _ => unfold Ahead; rw [mac_pc]; trivial
  | full hp _ => cases hp; trivial
  | allocated hp | running2 hp _ | noError2 hp _ | peekSome hp _ | doneFull hp _ | doneRoom hp _ | doneQueued hp _ _ =>
    cases hp
    exact hA
  | _ => trivial

/-- The thread puts in `DONE` whatever the flags say. -/
theorem Moves.rest_settled (h : Moves tf tf_key mc l fl inq out l' fl' inq' out') (hready : Ready l out)
    (hS : Settled l) (hR : Rest mc hd m final l ins a) :
    ∃ a', Rest mc hd m final l' ins a' ∧ out'.elements ++ a' = out.elements ++ a ∧ inq' = inq := by
  obtain ⟨pc, hdr, md, mch, ctx, cm, st⟩ := l
  rcases hS with hp | hp | hp <;> cases hp
  · cases h with
    | doneFull _ _ => exact ⟨a, hR, rfl, rfl⟩
    | doneRoom _ _ => exact ⟨a, hR, rfl, rfl⟩
    | peekEmpty hp _ => rcases hp with hp | ⟨hp, -⟩ <;> cases hp
    | _ hp => cases hp
  · cases h with
    | doneQueued _ _ hq => exact ⟨[], rfl, by rw [(enque_eq_some hq).1, hR.2]; simp, rfl⟩
    | doneNotQueued _ _ hn => exact absurd (hready (Or.inr rfl)) hn
    | peekEmpty hp _ => rcases hp with hp | ⟨hp, -⟩ <;> cases hp
    | _ hp => cases hp
  · exact absurd rfl h.not_returned

theorem continues (hin : inq.locked = false) (hlock : out.locked = false) (hH : Holding l) (hp : l.pc ≠ .returned) :
    ∃ r, step tf tf_key mc l fl inq out .success = some r := by
  obtain ⟨pc, hdr, md, mch, ctx, cm, st⟩ := l
  cases pc with
  | testError => by_cases he : fl.error = none <;> cases mch <;> simp [step, he]
  | fetch => cases hf : inq.front <;> simp [step, hin, hf]
  | headerAlloc =>
    obtain ⟨c, hc⟩ := Option.ne_none_iff_exists'.mp (hH (Or.inl rfl))
    cases hc
    cases hn : headerSize tf tf_key c <;> simp [step, hn]
  | setValid =>
    obtain ⟨c, hc⟩ := Option.ne_none_iff_exists'.mp (hH (Or.inr rfl))
    cases hc
    exact ⟨_, rfl⟩
  | enque => cases hq : mch.bind fun c => out.enque c <;> simp [step, hlock, hq]
  | peek => cases hf : inq.front <;> simp [step, hf]
  | fetch2 => cases hf : inq.front <;> simp [step, hin, hf]
  | queueDone => cases hq : out.queueDone <;> simp [step, hlock, hq]
  | returned => exact absurd rfl hp
  | _ => exact ⟨_, rfl⟩

/-- A thread that goes round has something coming. -/
theorem Unfed.awaits (hU : Unfed l inq) (hR : Rest mc hd m final l (inq.elements ++ x) a) : x ≠ [] := by
  rintro rfl
  obtain ⟨hn, hq, hp⟩ := hU
  have hleft : ∀ {ds : List Chunk}, ¬ Left m ds [] := fun h => by simpa using h.2
  rw [hq, List.append_nil] at hR
  rcases hp with hp | hp | hp <;> rw [Rest, hp] at hR
  · obtain ⟨-, -, ds, hl, -⟩ | ⟨-, -, c, ds, hc, -⟩ := hR
    · exact hleft hl
    · cases hn.symm.trans hc
  · obtain ⟨-, -, ds, hl, -⟩ | ⟨-, -, c, ds, hc, -⟩ := hR
    · exact hleft hl
    · cases hn.symm.trans hc
  · obtain ⟨-, -, ds, hl, -⟩ := hR
    exact hleft hl

end AuthThread

namespace DecryptThread

variable {tf : Threefish} {tf_key : ThreefishKey} {l l' : Local} {fl fl' : Flags} {inq inq' out out' : Queue}
  {x d : List Chunk}

/-- The thread is past its loop. -/
def Spent (l : Local) : Prop := l.pc = .doneIsFull ∨ l.pc = .queueDone ∨ l.pc = .returned

/-- It gets there by `DONE`, or because it is stopped. -/
theorem Moves.spent (h : Moves tf tf_key l fl inq out l' fl' inq' out') (herr : fl.error = none)
    (hfail : ∀ code, l.pc ≠ .fail code) (hC : Carrying l) (hS : Spent l') :
    Spent l ∨ fl.running = false ∨ ∃ c, inq.front = some c ∧ c.action = .DONE ∧ inq' = inq.deque := by
  cases h with
  | failed hp => exact absurd hp (hfail _)
  | stopped _ hr => exact Or.inr (Or.inl hr)
  | kept _ _ hc hw =>
    cases hw with
    | done hd => exact absurd hd (hC _ hc)
    | stripped _ _ | again _ _ _ | decrypted _ _ _ _ => rcases hS with h | h | h <;> cases h
  | error _ he => exact absurd herr he
  | taken _ _ hf hw =>
    cases hw with
    | done hd => exact Or.inr (Or.inr ⟨_, hf, hd, rfl⟩)
    | stripped _ _ | again _ _ _ | decrypted _ _ _ _ => rcases hS with h | h | h <;> cases h
  | doneFull hp _ | doneRoom hp _ => exact Or.inl (Or.inl hp)
  | doneQueued hp _ _ => exact Or.inl (Or.inr (Or.inl hp))
  | _ => rcases hS with h | h | h <;> cases h

/-- Only the header is taken out without a chunk to be put out for it. -/
theorem Moves.header (h : Moves tf tf_key l fl inq out l' fl' inq' out') (hh : l'.st.header = true) :
    l.st.header = true ∧ (out' = out ∨ l.pc = .tryEnque ∨ l.pc = .queueDone) := by
  cases h with
  | kept _ _ _ hw =>
    cases hw with
    | stripped _ _ => cases hh
    | decrypted _ hn _ he => cases ((decryptChunk_action he).2.trans hn).symm.trans hh
    | done _ | again _ _ _ => exact ⟨hh, Or.inl rfl⟩
  | taken _ _ _ hw =>
    cases hw with
    | stripped _ _ => cases hh
    | decrypted _ hn _ he => cases ((decryptChunk_action he).2.trans hn).symm.trans hh
    | done _ | again _ _ _ => exact ⟨hh, Or.inl rfl⟩
  | queued hp _ _ _ => exact ⟨hh, Or.inr (Or.inl hp)⟩
  | doneQueued hp _ _ | doneNotQueued hp _ _ => exact ⟨hh, Or.inr (Or.inr hp)⟩
  | _ => exact ⟨hh, Or.inl rfl⟩

end DecryptThread

namespace WriteThread

variable {P : WriteParams} {l l' : Local} {fl fl' : Flags} {inq inq' : Queue} {fs fs' : FileSystem}

/-- A writer past its loop was so before, or has just taken out `DONE`, or has
written enough. -/
theorem Moves.leaves (h : Moves P l fl inq fs l' fl' inq' fs') (hrun : fl.running = true)
    (hhand : ∀ c, l.write_chunk = some c → c.action ≠ .DONE) (hp' : Past l' fl') :
    Past l fl ∨ (∃ c, inq.front = some c ∧ c.action = .DONE ∧ inq' = inq.deque) ∨
      (l.pc = .testSize ∧ fl.new_file_size ≤ l.bytes_written ∧ inq' = inq) := by
  have hno : ¬ Past (testDone P l) fl := fun hpast => by
    obtain ⟨-, -, c, hc, hd⟩ := testDone_past hpast
    exact hhand c ((testDone_chunk P l).symm.trans hc) hd
  obtain ⟨pc, wc, bw, btw, w⟩ := l
  cases h with
  | taken _ _ hf =>
    obtain ⟨-, -, c, hc, hd⟩ := testDone_past hp'
    cases (testDone_chunk P _).symm.trans hc
    exact Or.inr (Or.inl ⟨_, hf, hd, rfl⟩)
  | sizeReached hp hn => exact Or.inr (Or.inr ⟨hp, hn, rfl⟩)
  | kept _ _ _ | nothing _ _ _ => exact absurd hp' hno
  | notValid _ _ | sizeNotReached _ _ => exact absurd hp' (useChunk_past _)
  | stopped _ hr => exact absurd (hrun.symm.trans hr) (by decide)
  | error _ he => exact absurd hp' he
  | failed _ | writeFailed _ => cases hp'
  | good hp he => cases hp; exact Or.inl he
  | bad hp he => cases hp; exact absurd hp' he
  | renamed hp | notRenamed hp | cleared hp => cases hp; exact Or.inl trivial
  | _ => exact hp'.elim

theorem Moves.keeps_past (h : Moves P l fl inq fs l' fl' inq' fs') (herr' : fl'.error = none) (hp : Past l fl) :
    Past l' fl' := by
  obtain ⟨pc, wc, bw, btw, w⟩ := l
  cases h with
  | bad hpc he => cases hpc; exact absurd hp he
  | good hpc _ | renamed hpc | notRenamed hpc => exact trivial
  | cleared hpc => exact herr'
  | toWrite hpc _ | wrote hpc _ | notWritten _ hpc _ | writeFailed hpc | opened hpc | notOpened hpc | failed hpc
  | running hpc _ | stopped hpc _ | empty hpc _ _ | kept hpc _ _ | error hpc _ | nothing hpc _ _ | taken hpc _ _
  | valid hpc _ | notValid hpc _ | sizeReached hpc _ | sizeNotReached hpc _ => cases hpc; exact hp.elim

/-- As long as it is in its loop, the chunk in hand is not `DONE`, and `DONE` is
still to come. -/
theorem Moves.loops {d : List Chunk} (h : Moves P l fl inq fs l' fl' inq' fs') (herr' : fl'.error = none)
    (hp' : ¬ Past l' fl') (hhand : ∀ c, l.write_chunk = some c → c.action ≠ .DONE)
    (hcomes : ∃ cs, inq.elements ++ d = cs ++ [doneChunk]) :
    (∀ c, l'.write_chunk = some c → c.action ≠ .DONE) ∧ ∃ cs, inq'.elements ++ d = cs ++ [doneChunk] := by
  cases h with
  | @taken c _ _ hf =>
    have hc : c.action ≠ .DONE := fun hd => by
      have hex : ∃ e ∈ (some c : Option Chunk), e.action = .DONE := ⟨c, rfl, hd⟩
      rw [testDone, if_pos hex] at hp'
      exact hp' herr'
    refine ⟨fun e he => ?_, ?_⟩
    · cases (testDone_chunk P _).symm.trans he
      exact hc
    · obtain ⟨cs, hcs⟩ := hcomes
      rw [front_eq_some hf, List.cons_append] at hcs
      cases cs with
      | nil =>
        obtain ⟨rfl, -⟩ := List.cons.inj hcs
        exact absurd doneChunk_action hc
      | cons e cs => exact ⟨cs, (List.cons.inj hcs).2⟩
  | kept _ _ _ | nothing _ _ _ => exact ⟨fun c hc => hhand c ((testDone_chunk P l).symm.trans hc), hcomes⟩
  | notValid _ _ | sizeNotReached _ _ => exact ⟨fun c hc => hhand c ((useChunk_chunk l).symm.trans hc), hcomes⟩
  | wrote _ _ => exact ⟨fun c hc => (by cases hc), hcomes⟩
  | _ => exact ⟨hhand, hcomes⟩

end WriteThread

end Threefizer
