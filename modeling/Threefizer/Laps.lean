/-
# The laps of the threads

Each thread runs a loop: it takes a chunk, works on it, and puts one out. `lap`
is how many steps of the current lap a thread has left at most, as long as
nothing stops it. A lap without input, or without room for the output, is no
progress: the thread goes round and round in it, and there `lap` does not change.
Otherwise the thread *drives*: its next step brings it nearer to the end of its
lap, or ends it and puts out a chunk (`Moves.laps`).

A chunk put out is worth more than a lap, so that a thread that has less to put
out is nearer to its end, wherever it is in its loop.
-/
import Threefizer.WriterSize
import Threefizer.GenerateThread
import Threefizer.EncryptThread
import Threefizer.AuthThread
import Threefizer.DecryptThread

namespace Threefizer

open Words Queue

namespace Queue

theorem length_enque {c : Chunk} {q q' : Queue} (hq : enque c q = some q') :
    q'.elements.length = q.elements.length + 1 := by
  rw [(enque_eq_some hq).1, List.length_append, List.length_singleton]

/-- A queue with a front is not empty. -/
theorem elements_of_front {c : Chunk} {q : Queue} (hf : q.front = some c) : q.elements ≠ [] := by
  rw [front_eq_some hf]
  exact List.cons_ne_nil _ _

/-- A producer leaves what is in its queue. -/
theorem Produces.nonempty {put put' : Option Chunk} {out out' : Queue} (h : Produces put put' out out')
    (hroom : put ≠ none → out.HasRoom) (hne : out.elements ≠ []) : out'.elements ≠ [] := by
  by_cases hput : put = none
  · rw [h.idle hput]
    exact hne
  · obtain ⟨c, hc⟩ := Option.ne_none_iff_exists'.mp hput
    rw [(enque_eq_some (h.puts c hc (hroom hput))).1]
    simp

theorem Produces.front {put put' : Option Chunk} {out out' : Queue} {c : Chunk} (h : Produces put put' out out')
    (hroom : put ≠ none → out.HasRoom) (hf : out.front = some c) : out'.front = some c := by
  by_cases hput : put = none
  · rw [h.idle hput]
    exact hf
  · obtain ⟨d, hd⟩ := Option.ne_none_iff_exists'.mp hput
    rw [Queue.front, (enque_eq_some (h.puts d hd (hroom hput))).1, front_eq_some hf]
    rfl

end Queue

namespace Reader

variable {R : Reader} {l l' : Local} {fl fl' : Flags} {out out' : Queue}

/-! ### The readers -/

def lap (l : Local) : ℕ :=
  match l.pc with
  | .start => 5
  | .testRunning => 4
  | .testError => 3
  | .queueIsFull | .doneIsFull => 2
  | .enque | .queueDone | .fail _ => 1
  | .returned => 0

/-- A reader needs nothing but room. -/
def Drives (l : Local) (out : Queue) : Prop := l.pc ≠ .returned ∧ out.HasRoom

theorem Drives.mono (h : Drives l out) (hout : out.HasRoom → out'.HasRoom) : Drives l out' := ⟨h.1, hout h.2⟩

theorem Moves.laps (h : R.Moves l fl out l' fl' out') (hready : Ready l out)
    (hc : l.pc = .enque → l.data_chunk ≠ none) :
    lap l' + 4 * out.elements.length < lap l + 4 * out'.elements.length ∨
      lap l' = lap l ∧ out' = out ∧ ¬ Drives l out := by
  cases h with
  | full hp hf => exact Or.inr ⟨rfl, rfl, fun hD => not_hasRoom_of_full hf hD.2⟩
  | doneFull hp hf => exact Or.inr ⟨rfl, rfl, fun hD => not_hasRoom_of_full hf hD.2⟩
  | queued hp _ _ hq =>
    refine Or.inl ?_
    rw [length_enque hq]
    simp only [lap, hp]
    omega
  | notQueued hp _ hn => exact absurd hn (not_or.mpr ⟨hc hp, not_not.mpr (hready (Or.inl hp))⟩)
  | doneQueued hp _ hq =>
    refine Or.inl ?_
    rw [length_enque hq]
    simp only [lap, hp]
    omega
  | doneNotQueued hp _ hn => exact absurd (hready (Or.inr hp)) hn
  | tooSmall hp _ | opened hp _ | notOpened hp _ | failed hp | running hp _ | stopped hp _ | kept hp _ _ _
  | read hp _ _ _ _ | finished hp _ | room hp _ | doneRoom hp _ =>
    refine Or.inl (Nat.add_lt_add_right ?_ _)
    simp only [lap, hp]
    decide

end Reader

namespace EncryptThread

variable {tf : Threefish} {tf_key : ThreefishKey} {l l' : Local} {fl fl' : Flags} {inq inq' out out' : Queue}

/-! ### `encryptQueue` -/

/-- The thread goes round without a chunk. -/
def Idle (l : Local) (inq : Queue) : Prop :=
  l.encrypt_chunk = none ∧ inq.elements = [] ∧ (l.pc = .testRunning ∨ l.pc = .testError ∨ l.pc = .fetch)

def lap (l : Local) (inq out : Queue) : ℕ :=
  match l.pc with
  | .alloc => 9
  | .testRunning => if l.encrypt_chunk = none then 8 else 5
  | .testError =>
    if l.encrypt_chunk = none then (if inq.elements = [] then 8 else 7) else if out.queueIsFull then 5 else 4
  | .fetch => if inq.elements = [] then 8 else 6
  | .queueIsFull => if out.queueIsFull then 5 else 3
  | .headerFail => 3
  | .enque | .doneIsFull => 2
  | .queueDone | .fail _ => 1
  | .returned => 0

def Drives (l : Local) (inq out : Queue) : Prop := l.pc ≠ .returned ∧ out.HasRoom ∧ ¬ Idle l inq

theorem Drives.mono (h : Drives l inq out) (hin : inq.elements ≠ [] → inq'.elements ≠ [])
    (hout : out.HasRoom → out'.HasRoom) : Drives l inq' out' :=
  ⟨h.1, hout h.2.1, fun hI => h.2.2 ⟨hI.1, by_contra fun hne => hin hne hI.2.1, hI.2.2⟩⟩

/-- Input and room make a lap no longer. -/
theorem lap_le (l : Local) (hin : inq.elements ≠ [] → inq'.elements ≠ []) (hout : out.HasRoom → out'.HasRoom) :
    lap l inq' out' ≤ lap l inq out := by
  have hfull : out'.queueIsFull = true → out.queueIsFull = true := fun hf => by
    by_contra hn
    exact not_hasRoom_of_full hf (hout (hasRoom_iff.mpr (by simpa using hn)))
  have hempty : inq'.elements = [] → inq.elements = [] := fun h => by_contra fun hn => hin hn h
  unfold lap
  cases l.pc with
  | testError | fetch | queueIsFull => simp only; split_ifs <;> simp_all
  | _ => exact le_rfl

/-- With a chunk in hand the thread waits for nothing but room. -/
theorem Worked.lap {c : Chunk} (h : Worked tf tf_key l c l') (inq out : Queue) :
    lap l' inq out ≤ if out.queueIsFull then 5 else 3 := by
  cases h with
  | done _ => simp only [EncryptThread.lap]; split <;> decide
  | failed _ _ => simp only [EncryptThread.lap]; split <;> decide
  | encrypted _ _ _ => exact le_rfl
  | again _ _ _ => exact le_rfl

theorem Moves.laps {x e : List Chunk} (h : Moves tf tf_key l fl inq out l' fl' inq' out') (hready : Ready l out)
    (hR : Rest tf tf_key l x e) :
    lap l' inq' out' + 8 * out.elements.length < lap l inq out + 8 * out'.elements.length ∨
      lap l' inq' out' = lap l inq out ∧ out' = out ∧ ¬ Drives l inq out := by
  obtain ⟨pc, st, en, ec⟩ := l
  cases h with
  | running hp _ =>
    cases hp
    cases ec with
    | none =>
      by_cases hin : inq.elements = []
      · exact Or.inr ⟨by simp [lap, hin], rfl, fun hD => hD.2.2 ⟨rfl, hin, Or.inl rfl⟩⟩
      · exact Or.inl (by simp [lap, hin])
    | some c =>
      by_cases hf : out.queueIsFull = true
      · exact Or.inr ⟨by simp [lap, hf], rfl, fun hD => not_hasRoom_of_full hf hD.2.1⟩
      · exact Or.inl (by simp [lap, hf])
  | empty hp _ hn =>
    cases hp
    cases hn
    by_cases hin : inq.elements = []
    · exact Or.inr ⟨by simp [lap, hin], rfl, fun hD => hD.2.2 ⟨rfl, hin, Or.inr (Or.inl rfl)⟩⟩
    · exact Or.inl (by simp [lap, hin])
  | @kept c l' hp _ hc hw =>
    cases hp
    cases hc
    have hle := hw.lap inq out
    by_cases hf : out.queueIsFull = true
    · rw [if_pos hf] at hle
      have hlap : lap ⟨.testError, st, en, some c⟩ inq out = 5 := by simp [lap, hf]
      rcases Nat.lt_or_eq_of_le hle with hlt | heq
      · exact Or.inl (Nat.add_lt_add_right (hlap ▸ hlt) _)
      · exact Or.inr ⟨heq.trans hlap.symm, rfl, fun hD => not_hasRoom_of_full hf hD.2.1⟩
    · rw [if_neg hf] at hle
      have hlap : lap ⟨.testError, st, en, some c⟩ inq out = 4 := by simp [lap, hf]
      exact Or.inl (Nat.add_lt_add_right (by omega) _)
  | nothing hp _ hf =>
    cases hp
    cases hR.1
    have hin := front_eq_none hf
    exact Or.inr ⟨by simp [lap, hin], rfl, fun hD => hD.2.2 ⟨rfl, hin, Or.inr (Or.inr rfl)⟩⟩
  | taken hp _ hf hw =>
    cases hp
    refine Or.inl (Nat.add_lt_add_right ?_ _)
    have hle := hw.lap inq.deque out
    have hlap : lap ⟨.fetch, st, en, ec⟩ inq out = 6 := if_neg (elements_of_front hf)
    split at hle <;> omega
  | full hp hf =>
    cases hp
    obtain ⟨-, c, os, hc, -⟩ := hR
    cases hc
    exact Or.inr ⟨by simp [lap, hf], rfl, fun hD => not_hasRoom_of_full hf hD.2.1⟩
  | room hp hr =>
    cases hp
    have hf := hasRoom_iff.mp hr
    exact Or.inl (by simp [lap, hf])
  | queued hp _ _ hq =>
    cases hp
    refine Or.inl ?_
    rw [length_enque hq]
    simp only [lap, if_true]
    omega
  | notQueued hp _ hn =>
    cases hp
    obtain ⟨-, c, os, hc, -⟩ := hR
    cases hc
    exact absurd hn (not_or.mpr ⟨Option.some_ne_none c, not_not.mpr (hready (Or.inl rfl))⟩)
  | doneFull hp hf => exact Or.inr ⟨rfl, rfl, fun hD => not_hasRoom_of_full hf hD.2.1⟩
  | doneQueued hp _ hq =>
    cases hp
    refine Or.inl ?_
    rw [length_enque hq]
    simp only [lap]
    omega
  | doneNotQueued hp _ hn => exact absurd (hready (Or.inr hp)) hn
  | stopped hp _ =>
    cases hp
    refine Or.inl (Nat.add_lt_add_right ?_ _)
    simp only [lap]
    split <;> decide
  | error hp _ =>
    cases hp
    refine Or.inl (Nat.add_lt_add_right ?_ _)
    simp only [lap]
    split
    · split <;> decide
    · split <;> decide
  | allocated hp =>
    cases hp
    refine Or.inl (Nat.add_lt_add_right ?_ _)
    simp only [lap]
    split <;> decide
  | notAllocated hp | failed hp | headerFailed hp | doneRoom hp _ =>
    cases hp
    refine Or.inl (Nat.add_lt_add_right ?_ _)
    simp only [lap]
    decide

end EncryptThread

namespace GenerateThread

variable {sk : Skein} {mc : MacCtx sk} {l l' : Local sk} {fl fl' : Flags} {inq inq' out out' : Queue}

/-! ### `generateMAC` -/

/-- The thread goes round between its two looks at an empty queue. -/
def Idle (l : Local sk) (inq : Queue) : Prop := inq.elements = [] ∧ (l.pc = .guard1 ∨ l.pc = .guard3)

def lap (l : Local sk) (inq : Queue) : ℕ :=
  match l.pc with
  | .guard1 => if inq.elements = [] then 9 else 8
  | .guard2 => 7
  | .guard3 => if inq.elements = [] then 9 else 6
  | .tail1 => 6
  | .fetch | .tail2 => 5
  | .spin | .spinMac => 4
  | .enque | .enqueMac => 3
  | .doneIsFull => 2
  | .queueDone | .fail _ => 1
  | .returned => 0

def Drives (l : Local sk) (inq out : Queue) : Prop := l.pc ≠ .returned ∧ out.HasRoom ∧ ¬ Idle l inq

theorem Drives.mono (h : Drives l inq out) (hin : inq.elements ≠ [] → inq'.elements ≠ [])
    (hout : out.HasRoom → out'.HasRoom) : Drives l inq' out' :=
  ⟨h.1, hout h.2.1, fun hI => h.2.2 ⟨by_contra fun hne => hin hne hI.1, hI.2⟩⟩

theorem lap_le (l : Local sk) (hin : inq.elements ≠ [] → inq'.elements ≠ []) : lap l inq' ≤ lap l inq := by
  have hempty : inq'.elements = [] → inq.elements = [] := fun h => by_contra fun hn => hin hn h
  unfold lap
  cases l.pc with
  | guard1 | guard3 => simp only; split_ifs <;> simp_all
  | _ => exact le_rfl

theorem Moves.laps (h : Moves mc l fl inq out l' fl' inq' out') (hready : Ready l out) (hW : Wary l inq)
    (hS : Steady l) (hin : ∀ c ∈ inq.elements, c.action = .GEN_MAC ∨ c.action = .DONE)
    (hc : l.pc = .enque → l.update_chunk ≠ none) :
    lap l' inq' + 8 * out.elements.length < lap l inq + 8 * out'.elements.length ∨
      lap l' inq' = lap l inq ∧ out' = out ∧ ¬ Drives l inq out := by
  obtain ⟨pc, ctx, cm, uc, mch⟩ := l
  cases h with
  | empty hp hf =>
    cases hp
    cases show uc = none from hS
    have hq := front_eq_none hf
    exact Or.inr ⟨by simp [lap, enter, hq], rfl, fun hD => hD.2.2 ⟨hq, Or.inl rfl⟩⟩
  | stillEmpty hp hf =>
    cases hp
    have hq := front_eq_none hf
    exact Or.inr ⟨by simp [lap, hq], rfl, fun hD => hD.2.2 ⟨hq, Or.inr rfl⟩⟩
  | notEmpty hp hf =>
    cases hp
    exact Or.inl (by simp [lap, elements_of_front hf])
  | notDone hp hf _ =>
    cases hp
    cases show uc = none from hS
    exact Or.inl (by simp [lap, enter, elements_of_front hf])
  | available hp hf =>
    cases hp
    exact Or.inl (by simp [lap, elements_of_front hf])
  | nothing hp _ hf => exact absurd hf (hW.nonempty hp)
  | @taken c hp _ hf =>
    -- what is taken out is to be MACed, so it is passed on
    have hgen : c.action = .GEN_MAC := (hin c (by rw [front_eq_some hf]; exact List.mem_cons_self)).resolve_right
      (hW.front (Or.inr hp) c hf)
    cases hp
    refine Or.inl (Nat.add_lt_add_right ?_ _)
    simp only [lap, (work_genMac hgen rfl : (work mc ⟨.fetch, ctx, false, uc, mch⟩ c).pc = .spin)]
    decide
  | full hp hf => exact Or.inr ⟨rfl, rfl, fun hD => not_hasRoom_of_full hf hD.2.1⟩
  | macFull hp hf => exact Or.inr ⟨rfl, rfl, fun hD => not_hasRoom_of_full hf hD.2.1⟩
  | doneFull hp hf => exact Or.inr ⟨rfl, rfl, fun hD => not_hasRoom_of_full hf hD.2.1⟩
  | queued hp _ _ hq =>
    cases hp
    refine Or.inl ?_
    rw [length_enque hq]
    simp only [lap]
    split <;> omega
  | notQueued hp _ hn => exact absurd hn (not_or.mpr ⟨hc hp, not_not.mpr (hready (Or.inl hp))⟩)
  | macQueued hp _ _ hq =>
    cases hp
    refine Or.inl ?_
    rw [length_enque hq]
    simp only [lap]
    omega
  | doneQueued hp _ hq =>
    cases hp
    refine Or.inl ?_
    rw [length_enque hq]
    simp only [lap]
    omega
  | doneNotQueued hp _ hn => exact absurd (hready (Or.inr (Or.inr hp))) hn
  | sawDone hp _ _ | room hp _ | noTail hp _ | tail hp _ | final hp _ _ | notFinal hp _ _ | macRoom hp _
  | macNotQueued hp _ _ | doneRoom hp _ | failed hp =>
    cases hp
    refine Or.inl (Nat.add_lt_add_right ?_ _)
    simp only [lap]
    decide

end GenerateThread

namespace AuthThread

variable {sk : Skein} {tf : Threefish} {tf_key : ThreefishKey} {mc : MacCtx sk} {l l' : Local sk}
  {fl fl' : Flags} {inq inq' out out' : Queue}

/-! ### `authenticateMAC` -/

/-- The thread goes round in its first loop without a chunk. -/
def Unfed (l : Local sk) (inq : Queue) : Prop :=
  l.mac_chunk = none ∧ inq.elements = [] ∧ (l.pc = .testRunning ∨ l.pc = .testError ∨ l.pc = .fetch)

def lap (l : Local sk) (inq out : Queue) : ℕ :=
  match l.pc with
  | .testRunning => if l.mac_chunk = none then 12 else 6
  | .testError =>
    if l.mac_chunk = none then (if inq.elements = [] then 12 else 11) else if out.queueIsFull then 6 else 5
  | .fetch => if inq.elements = [] then 12 else 10
  | .headerAlloc | .macAlloc => 9
  | .setValid | .test2Running => 8
  | .test2Error => 7
  | .tryFull => if out.queueIsFull then 6 else 4
  | .peek => 6
  | .fetch2 => 5
  | .spin => 3
  | .enque | .doneIsFull => 2
  | .queueDone | .fail _ => 1
  | .returned => 0

def Drives (l : Local sk) (inq out : Queue) : Prop := l.pc ≠ .returned ∧ out.HasRoom ∧ ¬ Unfed l inq

theorem Drives.mono (h : Drives l inq out) (hin : inq.elements ≠ [] → inq'.elements ≠ [])
    (hout : out.HasRoom → out'.HasRoom) : Drives l inq' out' :=
  ⟨h.1, hout h.2.1, fun hU => h.2.2 ⟨hU.1, by_contra fun hne => hin hne hU.2.1, hU.2.2⟩⟩

theorem lap_le (l : Local sk) (hin : inq.elements ≠ [] → inq'.elements ≠ []) (hout : out.HasRoom → out'.HasRoom) :
    lap l inq' out' ≤ lap l inq out := by
  have hfull : out'.queueIsFull = true → out.queueIsFull = true := fun hf => by
    by_contra hn
    exact not_hasRoom_of_full hf (hout (hasRoom_iff.mpr (by simpa using hn)))
  have hempty : inq'.elements = [] → inq.elements = [] := fun h => by_contra fun hn => hin hn h
  unfold lap
  cases l.pc with
  | testError | fetch | tryFull => simp only; split_ifs <;> simp_all
  | _ => exact le_rfl

variable (mc) in
/-- What is taken out is nearer to its end than the fetch. -/
theorem lap_work (l : Local sk) (c : Chunk) (inq out : Queue) : lap (work mc l c) inq out ≤ 9 := by
  unfold lap
  rcases work_pc mc l c with h | h | h <;> rw [h]
  simp only
  split <;> decide

/-- The lap of a thread that nothing disturbs: the flags are as they should be
where it looks at them, and in the second loop there is a chunk to be seen. -/
theorem Moves.laps {hd m : Chunk} {final : sk.Ctx} {x a : List Chunk}
    (h : Moves tf tf_key mc l fl inq out l' fl' inq' out') (hready : Ready l out)
    (hrun : l.pc = .testRunning → fl.running = true) (herr : fl.error = none)
    (hsees : l.pc = .peek ∨ l.pc = .fetch2 → inq.front ≠ none) (hR : Rest mc hd m final l x a) :
    lap l' inq' out' + 12 * out.elements.length < lap l inq out + 12 * out'.elements.length ∨
      lap l' inq' out' = lap l inq out ∧ out' = out ∧ ¬ Drives l inq out := by
  obtain ⟨pc, hdr, md, mch, ctx, cm, st⟩ := l
  cases h with
  | running hp _ =>
    cases hp
    cases mch with
    | none =>
      by_cases hin : inq.elements = []
      · exact Or.inr ⟨by simp [lap, hin], rfl, fun hD => hD.2.2 ⟨rfl, hin, Or.inl rfl⟩⟩
      · exact Or.inl (by simp [lap, hin])
    | some c =>
      by_cases hf : out.queueIsFull = true
      · exact Or.inr ⟨by simp [lap, hf], rfl, fun hD => not_hasRoom_of_full hf hD.2.1⟩
      · exact Or.inl (by simp [lap, hf])
  | stopped hp hr => exact absurd ((hrun hp).symm.trans hr) (by decide)
  | empty hp _ hn =>
    cases hp
    cases hn
    by_cases hin : inq.elements = []
    · exact Or.inr ⟨by simp [lap, hin], rfl, fun hD => hD.2.2 ⟨rfl, hin, Or.inr (Or.inl rfl)⟩⟩
    · exact Or.inl (by simp [lap, hin])
  | @kept c hp _ hc =>
    cases hp
    cases hc
    obtain ⟨hn, -⟩ | ⟨hmd, hh, c', ds, hc, hl, -⟩ := hR
    · cases hn
    cases hc
    cases hmd
    cases hh
    have hwork : (work mc ⟨.testError, false, true, some c, ctx, cm, st⟩ c).pc = .tryFull := by simp [work, hl, mac]
    by_cases hf : out.queueIsFull = true
    · exact Or.inr ⟨by simp [lap, hwork, hf], rfl, fun hD => not_hasRoom_of_full hf hD.2.1⟩
    · exact Or.inl (by simp [lap, hwork, hf])
  | error _ he => exact absurd herr he
  | nothing hp _ hf =>
    cases hp
    cases hR.1
    have hin := front_eq_none hf
    exact Or.inr ⟨by simp [lap, hin], rfl, fun hD => hD.2.2 ⟨rfl, hin, Or.inr (Or.inr rfl)⟩⟩
  | @taken c hp _ hf _ =>
    cases hp
    refine Or.inl (Nat.add_lt_add_right ?_ _)
    have hlap : lap ⟨.fetch, hdr, md, mch, ctx, cm, st⟩ inq out = 10 := if_neg (elements_of_front hf)
    have hle := lap_work mc ⟨.fetch, hdr, md, mch, ctx, cm, st⟩ c inq.deque out
    omega
  | @seen c hp _ hf _ =>
    cases hp
    refine Or.inl (Nat.add_lt_add_right ?_ _)
    have hlap : lap ⟨.fetch, hdr, md, mch, ctx, cm, st⟩ inq out = 10 := if_neg (elements_of_front hf)
    have hle := lap_work mc ⟨.fetch, hdr, md, mch, ctx, cm, st⟩ c inq out
    omega
  | setValid hp _ =>
    cases hp
    refine Or.inl (Nat.add_lt_add_right ?_ _)
    simp only [lap, mac_pc]
    split <;> decide
  | tryFull hp hf =>
    cases hp
    obtain ⟨-, -, c, ds, hc, -⟩ := hR
    cases hc
    exact Or.inr ⟨by simp [lap, hf], rfl, fun hD => not_hasRoom_of_full hf hD.2.1⟩
  | tryRoom hp hr =>
    cases hp
    have hf := hasRoom_iff.mp hr
    exact Or.inl (by simp [lap, hf])
  | full hp hf => exact Or.inr ⟨rfl, rfl, fun hD => not_hasRoom_of_full hf hD.2.1⟩
  | queued hp _ _ hq =>
    cases hp
    refine Or.inl ?_
    rw [length_enque hq]
    simp only [lap, if_true]
    omega
  | notQueued hp _ hn =>
    cases hp
    obtain ⟨-, -, c, ds, hc, -⟩ := hR
    cases hc
    exact absurd hn (not_or.mpr ⟨Option.some_ne_none c, not_not.mpr (hready (Or.inl rfl))⟩)
  | peekEmpty hp hf => exact absurd hf (hsees (hp.imp id And.left))
  | @compared c hp _ _ =>
    cases hp
    refine Or.inl (Nat.add_lt_add_right ?_ _)
    unfold lap
    rcases compare_pc mc ⟨.fetch2, hdr, md, mch, ctx, cm, st⟩ c with h | h <;> rw [h] <;> simp only <;> decide
  | doneFull hp hf => exact Or.inr ⟨rfl, rfl, fun hD => not_hasRoom_of_full hf hD.2.1⟩
  | doneQueued hp _ hq =>
    cases hp
    refine Or.inl ?_
    rw [length_enque hq]
    simp only [lap]
    omega
  | doneNotQueued hp _ hn => exact absurd (hready (Or.inr hp)) hn
  | headerNotAllocated hp | headerGood hp _ _ | headerBad hp _ _ | room hp _ | allocated hp | notAllocated hp
  | running2 hp _ | stopped2 hp _ | noError2 hp _ | error2 hp _ | peekSome hp _ | doneRoom hp _ | failed hp =>
    cases hp
    refine Or.inl (Nat.add_lt_add_right ?_ _)
    simp only [lap]
    decide

end AuthThread

namespace DecryptThread

variable {tf : Threefish} {tf_key : ThreefishKey} {l l' : Local} {fl fl' : Flags} {inq inq' out out' : Queue}

/-! ### `decryptQueue` -/

/-- The thread goes round without a chunk. -/
def Unfed (l : Local) (inq : Queue) : Prop :=
  l.decrypt_chunk = none ∧ inq.elements = [] ∧ (l.pc = .testRunning ∨ l.pc = .testError ∨ l.pc = .fetch)

-- the header takes a lap of its own, without a chunk put out
def lap (l : Local) (inq out : Queue) : ℕ :=
  (if l.st.header then 8 else 0) +
    match l.pc with
    | .alloc => 9
    | .testRunning => if l.decrypt_chunk = none then 8 else 5
    | .testError =>
      if l.decrypt_chunk = none then (if inq.elements = [] then 8 else 7) else if out.queueIsFull then 5 else 4
    | .fetch => if inq.elements = [] then 8 else 6
    | .tryEnque => if out.queueIsFull then 5 else 3
    | .doneIsFull => 2
    | .queueDone | .fail _ => 1
    | .returned => 0

def Drives (l : Local) (inq out : Queue) : Prop := l.pc ≠ .returned ∧ out.HasRoom ∧ ¬ Unfed l inq

theorem Drives.mono (h : Drives l inq out) (hin : inq.elements ≠ [] → inq'.elements ≠ [])
    (hout : out.HasRoom → out'.HasRoom) : Drives l inq' out' :=
  ⟨h.1, hout h.2.1, fun hU => h.2.2 ⟨hU.1, by_contra fun hne => hin hne hU.2.1, hU.2.2⟩⟩

theorem lap_le (l : Local) (hin : inq.elements ≠ [] → inq'.elements ≠ []) (hout : out.HasRoom → out'.HasRoom) :
    lap l inq' out' ≤ lap l inq out := by
  have hfull : out'.queueIsFull = true → out.queueIsFull = true := fun hf => by
    by_contra hn
    exact not_hasRoom_of_full hf (hout (hasRoom_iff.mpr (by simpa using hn)))
  have hempty : inq'.elements = [] → inq.elements = [] := fun h => by_contra fun hn => hin hn h
  refine Nat.add_le_add_left ?_ _
  cases l.pc with
  | testError | fetch | tryEnque => simp only; split_ifs <;> simp_all
  | _ => exact le_rfl

theorem Moves.laps {x d : List Chunk} (h : Moves tf tf_key l fl inq out l' fl' inq' out') (hready : Ready l out)
    (hR : Rest tf tf_key l x d) :
    lap l' inq' out' + 8 * out.elements.length < lap l inq out + 8 * out'.elements.length ∨
      lap l' inq' out' = lap l inq out ∧ out' = out ∧ ¬ Drives l inq out := by
  obtain ⟨pc, st, de, dc⟩ := l
  cases h with
  | running hp _ =>
    cases hp
    cases dc with
    | none =>
      by_cases hin : inq.elements = []
      · exact Or.inr ⟨by simp [lap, hin], rfl, fun hD => hD.2.2 ⟨rfl, hin, Or.inl rfl⟩⟩
      · exact Or.inl (by simp [lap, hin])
    | some c =>
      by_cases hf : out.queueIsFull = true
      · exact Or.inr ⟨by simp [lap, hf], rfl, fun hD => not_hasRoom_of_full hf hD.2.1⟩
      · exact Or.inl (by simp [lap, hf])
  | empty hp _ hn =>
    cases hp
    cases hn
    by_cases hin : inq.elements = []
    · exact Or.inr ⟨by simp [lap, hin], rfl, fun hD => hD.2.2 ⟨rfl, hin, Or.inr (Or.inl rfl)⟩⟩
    · exact Or.inl (by simp [lap, hin])
  | @kept c l' hp _ hc hw =>
    cases hp
    cases hc
    obtain ⟨hn, -⟩ | ⟨hf, he, c', os, hc, hd, -⟩ := hR
    · cases hn
    cases hc
    cases hw with
    | done hd' => exact absurd hd' hd
    | stripped _ hf' => exact absurd (hf.symm.trans hf') (by decide)
    | decrypted _ _ h _ => exact absurd (he.symm.trans h) (by decide)
    | again _ _ _ =>
      by_cases hfull : out.queueIsFull = true
      · exact Or.inr ⟨by simp [lap, hfull], rfl, fun hD => not_hasRoom_of_full hfull hD.2.1⟩
      · exact Or.inl (by simp [lap, hfull])
  | nothing hp _ hf =>
    cases hp
    cases hR.1
    have hin := front_eq_none hf
    exact Or.inr ⟨by simp [lap, hin], rfl, fun hD => hD.2.2 ⟨rfl, hin, Or.inr (Or.inr rfl)⟩⟩
  | taken hp _ hf hw =>
    cases hp
    refine Or.inl (Nat.add_lt_add_right ?_ _)
    have hin := elements_of_front hf
    cases hw with
    | done _ =>
      simp only [lap, if_neg hin]
      omega
    | stripped _ hh => simp [lap, hin, stripHeader, show st.header = true from hh]
    | again _ _ h => cases h
    | decrypted _ hh _ he =>
      have hh' : st.header = false := hh
      have hst := (decryptChunk_action he).2.trans hh
      simp only [lap, if_neg hin, hst, hh', Bool.false_eq_true, if_false]
      split <;> decide
  | queued hp _ hc hq =>
    cases hp
    refine Or.inl ?_
    have hf := hasRoom_iff.mp (hasRoom_of_enque hq)
    rw [length_enque hq]
    simp only [lap, if_true, hf, Bool.false_eq_true, if_false]
    omega
  | notQueued hp _ hn =>
    cases hp
    obtain ⟨-, -, c, os, hc, -⟩ := hR
    cases hc
    have hr : ¬ out.HasRoom := hn.resolve_left (Option.some_ne_none c)
    have hf : out.queueIsFull = true := by
      by_contra hf
      exact hr (hasRoom_iff.mpr (by simpa using hf))
    exact Or.inr ⟨by simp [lap, hf], rfl, fun hD => hr hD.2.1⟩
  | doneFull hp hf => exact Or.inr ⟨rfl, rfl, fun hD => not_hasRoom_of_full hf hD.2.1⟩
  | doneQueued hp _ hq =>
    cases hp
    refine Or.inl ?_
    rw [length_enque hq]
    simp only [lap]
    omega
  | doneNotQueued hp _ hn => exact absurd (hready hp) hn
  | stopped hp _ =>
    cases hp
    refine Or.inl (Nat.add_lt_add_right (Nat.add_lt_add_left ?_ _) _)
    simp only
    split <;> decide
  | error hp _ =>
    cases hp
    refine Or.inl (Nat.add_lt_add_right (Nat.add_lt_add_left ?_ _) _)
    simp only
    split_ifs <;> decide
  | allocated hp =>
    cases hp
    refine Or.inl (Nat.add_lt_add_right (Nat.add_lt_add_left ?_ _) _)
    simp only
    split <;> decide
  | notAllocated hp | failed hp | doneRoom hp _ =>
    cases hp
    refine Or.inl (Nat.add_lt_add_right (Nat.add_lt_add_left ?_ _) _)
    simp only
    decide

end DecryptThread

namespace WriteThread

variable {P : WriteParams} {l l' : Local} {fl fl' : Flags} {inq inq' : Queue} {fs fs' : FileSystem}

/-! ### The writer -/

/-- The writer goes round without a chunk. -/
def Idle (l : Local) (inq : Queue) : Prop :=
  l.write_chunk = none ∧ inq.elements = [] ∧
    (l.pc = .testRunning ∨ l.pc = .testError ∨ l.pc = .fetch ∨ l.pc = .testValid ∨ l.pc = .testSize)

def lap (l : Local) (inq : Queue) : ℕ :=
  match l.pc with
  | .openFile => 14
  | .testRunning => if l.write_chunk = none ∧ inq.elements = [] then 13 else 11
  | .testError => if l.write_chunk = none ∧ inq.elements = [] then 13 else 10
  | .fetch => if inq.elements = [] then 13 else 9
  -- without a chunk the writer goes on to another round
  | .testValid => if l.write_chunk = none then 13 else 8
  | .testSize => if l.write_chunk = none then (if inq.elements = [] then 13 else 12) else 7
  | .bytesToWrite => 6
  | .writeBytes => 5
  | .writeFail => 4
  | .lastError => 3
  | .rename => 2
  | .clearRunning | .fail _ => 1
  | .returned => 0

def Drives (l : Local) (inq : Queue) : Prop := l.pc ≠ .returned ∧ ¬ Idle l inq

theorem Drives.mono (h : Drives l inq) (hin : inq.elements ≠ [] → inq'.elements ≠ []) : Drives l inq' :=
  ⟨h.1, fun hI => h.2 ⟨hI.1, by_contra fun hne => hin hne hI.2.1, hI.2.2⟩⟩

theorem lap_le (l : Local) (hin : inq.elements ≠ [] → inq'.elements ≠ []) : lap l inq' ≤ lap l inq := by
  have hempty : inq'.elements = [] → inq.elements = [] := fun h => by_contra fun hn => hin hn h
  unfold lap
  cases l.pc with
  | testRunning | testError | fetch | testSize => simp only; split_ifs <;> simp_all
  | _ => exact le_rfl

/-- The chunk in hand, and the next one, is `DONE` or has something to write, and
it is not `DONE` when the size is looked at. -/
structure Filled (l : Local) (inq : Queue) : Prop where
  hand : l.pc = .testError ∨ l.pc = .testValid ∨ l.pc = .testSize →
    ∀ c, l.write_chunk = some c → c.action = .DONE ∨ c.data ≠ []
  next : l.pc = .fetch → l.write_chunk = none ∧ ∀ c, inq.front = some c → c.action = .DONE ∨ c.data ≠ []
  sized : l.pc = .testValid ∨ l.pc = .testSize → ∀ c, l.write_chunk = some c → c.action ≠ .DONE

theorem lap_useChunk {c : Chunk} (hc : l.write_chunk = some c) (hd : c.data ≠ []) (inq : Queue) :
    lap (useChunk l) inq = 6 := by
  simp [useChunk, hc, hd, lap]

theorem lap_testDone {c : Chunk} (hc : l.write_chunk = some c) (hd : c.action = .DONE ∨ c.data ≠ []) (inq : Queue) :
    lap (testDone P l) inq ≤ 8 := by
  by_cases hdone : c.action = .DONE
  · have hex : ∃ c ∈ l.write_chunk, c.action = .DONE := ⟨c, hc, hdone⟩
    rw [testDone, if_pos hex]
    exact (by decide : 3 ≤ 8)
  · have hex : ¬ ∃ c ∈ l.write_chunk, c.action = .DONE := by
      rintro ⟨d, hd', hdone'⟩
      cases hc.symm.trans hd'
      exact hdone hdone'
    rw [testDone, if_neg hex]
    split
    · simp [lap, hc]
    · rw [lap_useChunk hc (hd.resolve_left hdone)]
      decide

/-- Without a chunk, and with none in the queue, the writer goes round. -/
theorem lap_testDone_none (hc : l.write_chunk = none) (hq : inq.elements = []) : lap (testDone P l) inq = 13 := by
  have hex : ¬ ∃ c ∈ l.write_chunk, c.action = .DONE := by simp [hc]
  rw [testDone, if_neg hex]
  split
  · simp [lap, hc]
  · simp [useChunk, lap, hc, hq]

theorem waiting_taken {c : Chunk} (hc : l.write_chunk = none) (hf : inq.front = some c) :
    waiting { l with write_chunk := some c } inq.deque = waiting l inq := by
  simp only [waiting, hc, front_eq_some hf, Option.toList_some, Option.toList_none, List.length_nil,
    List.length_cons]
  omega

theorem Moves.laps (h : Moves P l fl inq fs l' fl' inq' fs') (hF : Filled l inq) :
    lap l' inq' + 16 * waiting l' inq' < lap l inq + 16 * waiting l inq ∨
      lap l' inq' + 16 * waiting l' inq' = lap l inq + 16 * waiting l inq ∧ ¬ Drives l inq := by
  obtain ⟨pc, wc, bw, btw, w⟩ := l
  obtain ⟨hhand, hnext, hsized⟩ := hF
  cases h with
  | running hp _ =>
    cases hp
    by_cases hI : wc = none ∧ inq.elements = []
    · exact Or.inr ⟨by simp [lap, waiting, hI], fun hD => hD.2 ⟨hI.1, hI.2, Or.inl rfl⟩⟩
    · refine Or.inl (Nat.add_lt_add_right ?_ _)
      simp only [lap, if_neg hI]
      decide
  | empty hp _ hn =>
    cases hp
    cases hn
    by_cases hq : inq.elements = []
    · exact Or.inr ⟨by simp [lap, waiting, hq], fun hD => hD.2 ⟨rfl, hq, Or.inr (Or.inl rfl)⟩⟩
    · refine Or.inl (Nat.add_lt_add_right ?_ _)
      simp [lap, hq]
  | @kept c hp _ hc =>
    cases hp
    cases hc
    have hle : lap (testDone P ⟨.testError, some c, bw, btw, w⟩) inq ≤ 8 := lap_testDone rfl (hhand (Or.inl rfl) c rfl) inq
    have hlap : lap ⟨.testError, some c, bw, btw, w⟩ inq = 10 := by simp [lap]
    rw [waiting_testDone]
    exact Or.inl (Nat.add_lt_add_right (by omega) _)
  | nothing hp _ hf =>
    cases hp
    cases (hnext rfl).1
    have hq := front_eq_none hf
    have hlap : lap (testDone P ⟨.fetch, none, bw, btw, w⟩) inq = 13 := lap_testDone_none rfl hq
    refine Or.inr ⟨?_, fun hD => hD.2 ⟨rfl, hq, Or.inr (Or.inr (Or.inl rfl))⟩⟩
    rw [waiting_testDone, hlap]
    simp [lap, hq]
  | @taken c hp _ hf =>
    cases hp
    cases (hnext rfl).1
    have hle : lap (testDone P ⟨.fetch, some c, bw, btw, w⟩) inq.deque ≤ 8 :=
      lap_testDone rfl ((hnext rfl).2 c hf) inq.deque
    have hlap : lap ⟨.fetch, none, bw, btw, w⟩ inq = 9 := if_neg (elements_of_front hf)
    have hwait := waiting_taken (l := ⟨.fetch, none, bw, btw, w⟩) rfl hf
    rw [waiting_testDone]
    simp only at hwait ⊢
    exact Or.inl (by omega)
  | valid hp _ =>
    cases hp
    cases wc with
    | none =>
      by_cases hq : inq.elements = []
      · exact Or.inr ⟨by simp [lap, waiting, hq], fun hD => hD.2 ⟨rfl, hq, Or.inr (Or.inr (Or.inr (Or.inl rfl)))⟩⟩
      · exact Or.inl (Nat.add_lt_add_right (by simp [lap, hq]) _)
    | some c => exact Or.inl (Nat.add_lt_add_right (by simp [lap]) _)
  | notValid hp _ =>
    cases hp
    cases wc with
    | none =>
      by_cases hq : inq.elements = []
      · exact Or.inr ⟨by simp [lap, useChunk, waiting, hq],
          fun hD => hD.2 ⟨rfl, hq, Or.inr (Or.inr (Or.inr (Or.inl rfl)))⟩⟩
      · exact Or.inl (Nat.add_lt_add_right (by simp [lap, useChunk, hq]) _)
    | some c =>
      have hd := (hhand (Or.inr (Or.inl rfl)) c rfl).resolve_left (hsized (Or.inl rfl) c rfl)
      exact Or.inl (Nat.add_lt_add_right (by simp [lap, useChunk, hd]) _)
  | sizeNotReached hp _ =>
    cases hp
    cases wc with
    | none =>
      by_cases hq : inq.elements = []
      · exact Or.inr ⟨by simp [lap, useChunk, waiting, hq],
          fun hD => hD.2 ⟨rfl, hq, Or.inr (Or.inr (Or.inr (Or.inr rfl)))⟩⟩
      · exact Or.inl (Nat.add_lt_add_right (by simp [lap, useChunk, hq]) _)
    | some c =>
      have hd := (hhand (Or.inr (Or.inr rfl)) c rfl).resolve_left (hsized (Or.inr rfl) c rfl)
      exact Or.inl (Nat.add_lt_add_right (by simp [lap, useChunk, hd]) _)
  | wrote hp hc =>
    cases hp
    cases hc
    refine Or.inl ?_
    simp only [lap, waiting, Option.toList_some, Option.toList_none, List.length_singleton, List.length_nil]
    split <;> omega
  | opened hp =>
    cases hp
    refine Or.inl (Nat.add_lt_add_right ?_ _)
    simp only [lap]
    split <;> decide
  | stopped hp _ =>
    cases hp
    refine Or.inl (Nat.add_lt_add_right ?_ _)
    simp only [lap]
    split <;> decide
  | error hp _ =>
    cases hp
    refine Or.inl (Nat.add_lt_add_right ?_ _)
    simp only [lap]
    split <;> decide
  | sizeReached hp _ =>
    cases hp
    refine Or.inl (Nat.add_lt_add_right ?_ _)
    simp only [lap]
    split
    · split <;> decide
    · decide
  | notOpened hp | failed hp | toWrite hp _ | notWritten _ hp _ | writeFailed hp | good hp _ | bad hp _ | renamed hp
  | notRenamed hp | cleared hp =>
    cases hp
    refine Or.inl (Nat.add_lt_add_right ?_ _)
    simp only [lap]
    decide

end WriteThread

end Threefizer
