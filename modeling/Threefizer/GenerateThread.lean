/-
# The thread that makes the tag (`generateMAC` of `macThread.c`)

The thread feeds every chunk to the MAC and passes it on; when it sees the
chunk `DONE` at the front of its input queue, which it leaves there, it puts
out the tag and `DONE`. `generateMAC` is what it puts out when it is run alone.

The loop guard, the guard of the fetch and the fetch look at the front of the
queue one after the other and without the lock. If `DONE` arrives on the empty
queue between the first two, it is taken out like any other chunk; it has no
data to MAC, so it is never passed on and the loop never ends (`Swallowed`).
-/
import Threefizer.ChunkQueue

namespace Threefizer

open Words Queue

/-- `DONE` is the last chunk of a run of chunks, if it is there at all. -/
def DoneLast (cs : List Chunk) : Prop := ∀ a c b, cs = a ++ c :: b → c.action = .DONE → b = []

theorem DoneLast.tail {c : Chunk} {cs : List Chunk} (h : DoneLast (c :: cs)) : DoneLast cs :=
  fun a d b hs hd => h (c :: a) d b (by rw [hs]; rfl) hd

theorem doneLast_concat {cs : List Chunk} (h : ∀ c ∈ cs, c.action ≠ .DONE) (d : Chunk) :
    DoneLast (cs ++ [d]) := by
  intro a c b hs hd
  rcases List.eq_nil_or_concat b with hb | ⟨b', z, rfl⟩
  · exact hb
  · rw [List.concat_eq_append, ← List.cons_append, ← List.append_assoc] at hs
    have hcs := (List.append_inj' hs rfl).1
    exact absurd hd (h c (by rw [hcs]; simp))

namespace GenerateThread

variable {sk : Skein} (mc : MacCtx sk)

/-- The chunk with the tag. -/
def tagChunk (ctx : sk.Ctx) : Chunk :=
  { createChunk with action := .MAC, data := sk.skeinFinal ctx, data_size := mc.digest_byte_size }

/-- A chunk that is passed on. -/
def passed (c : Chunk) : Chunk := { c with action := mc.out_action }

/-- `generateMAC` alone on the chunks of its input queue: what it puts out,
none when it does not return. -/
def generateMAC (ctx : sk.Ctx) : List Chunk → Option (List Chunk)
  | [] => none
  | c :: cs =>
    if c.action = .DONE then some [tagChunk mc ctx, doneChunk]
    else if c.action = .GEN_MAC then
      (generateMAC (sk.skeinUpdate ctx c.bytes) cs).map (passed mc c :: ·)
    else none

/-! ### The thread -/

/-- Where the thread stands: the two reads of the loop guard, the guard of the
fetch, the fetch, the two reads after the loop. -/
inductive Pc
  | guard1 | guard2 | guard3 | fetch | spin | enque
  | tail1 | tail2 | spinMac | enqueMac
  | doneIsFull | queueDone
  | fail (code : Error)
  | returned
  deriving DecidableEq, Repr

/-- The local variables, with the state of the MAC. -/
structure Local (sk : Skein) where
  pc : Pc
  ctx : sk.Ctx
  chunk_maced : Bool
  update_chunk : Option Chunk
  mac_chunk : Option Chunk

def Local.init : Local sk := ⟨.guard1, mc.skein_context, false, none, none⟩

/-- What is done with a chunk up to the attempt to queue it. -/
def work (l : Local sk) (c : Chunk) : Local sk :=
  if c.action = .GEN_MAC ∧ ¬ l.chunk_maced then
    { l with
      pc := .spin
      ctx := sk.skeinUpdate l.ctx c.bytes
      chunk_maced := true
      update_chunk := some (passed mc c) }
  else { l with pc := if l.chunk_maced then .spin else .guard1, update_chunk := some c }

/-- The loop body up to the read of its first guard. -/
def enter (l : Local sk) : Local sk :=
  match l.update_chunk with
  | none => { l with pc := .guard3 }
  | some c => work mc l c

/-- One step of the thread. -/
def step (l : Local sk) (fl : Flags) (inq out : Queue) :
    Option (Local sk × Flags × Queue × Queue) :=
  match l.pc with
  | .guard1 =>
    match inq.front with
    | none => some (enter mc l, fl, inq, out)
    | some _ => some ({ l with pc := .guard2 }, fl, inq, out)
  | .guard2 => inq.front.map fun c =>
      (if c.action ≠ .DONE then enter mc l else { l with pc := .tail1 }, fl, inq, out)
  | .guard3 =>
    match inq.front with
    | none => some ({ l with pc := .guard1 }, fl, inq, out)
    | some _ => some ({ l with pc := .fetch }, fl, inq, out)
  | .fetch =>
    if inq.locked then none
    else match inq.front with
      | none => some ({ l with pc := .guard1, chunk_maced := false }, fl, inq, out)
      | some c => some (work mc { l with chunk_maced := false } c, fl, inq.deque, out)
  | .spin => some ({ l with pc := if out.queueIsFull then .spin else .enque }, fl, inq, out)
  | .enque =>
    if out.locked then none
    else match l.update_chunk.bind fun c => out.enque c with
      | some out' => some ({ l with pc := .guard1, update_chunk := none }, fl, inq, out')
      | none => some ({ l with pc := .guard1 }, fl, inq, out)
  | .tail1 =>
    match inq.front with
    | none => some ({ l with pc := .fail .MAC_GENERATION_FAIL }, fl, inq, out)
    | some _ => some ({ l with pc := .tail2 }, fl, inq, out)
  | .tail2 => inq.front.map fun c =>
      (if c.action = .DONE then { l with pc := .spinMac, mac_chunk := some (tagChunk mc l.ctx) }
        else { l with pc := .fail .MAC_GENERATION_FAIL }, fl, inq, out)
  | .spinMac => some ({ l with pc := if out.queueIsFull then .spinMac else .enqueMac }, fl, inq, out)
  | .enqueMac =>
    if out.locked then none
    else match l.mac_chunk.bind fun c => out.enque c with
      | some out' => some ({ l with pc := .doneIsFull }, fl, inq, out')
      | none =>
        some ({ l with pc := .doneIsFull }, { fl with error := some .MAC_GENERATION_FAIL }, inq, out)
  | .doneIsFull =>
    some ({ l with pc := if out.queueIsFull then .doneIsFull else .queueDone }, fl, inq, out)
  | .queueDone =>
    if out.locked then none
    else match out.queueDone with
      | some out' => some ({ l with pc := .returned }, fl, inq, out')
      | none => some ({ l with pc := .fail .QUEUE_OPERATION_FAIL }, fl, inq, out.abandon)
  | .fail code => some ({ l with pc := .returned }, { fl with error := some code }, inq, out)
  | .returned => none

/-- The thread has taken out a chunk it can do nothing with. -/
def Swallowed (l : Local sk) : Prop :=
  (∃ c, l.update_chunk = some c ∧ c.action = .DONE) ∧ l.chunk_maced = false ∧
    (l.pc = .guard1 ∨ l.pc = .guard2)

/-- The chunks the thread has still to put out if nothing stops it and `ins`
is what it is given. -/
def Rest (l : Local sk) (ins outs : List Chunk) : Prop :=
  match l.pc with
  | .guard1 | .guard2 =>
    (l.update_chunk = none ∧ generateMAC mc l.ctx ins = some outs) ∨ (Swallowed l ∧ ins = [])
  | .guard3 | .fetch => l.update_chunk = none ∧ generateMAC mc l.ctx ins = some outs
  | .spin | .enque => l.chunk_maced = true ∧ ∃ c os, l.update_chunk = some c ∧
      generateMAC mc l.ctx ins = some os ∧ outs = c :: os
  | .tail1 | .tail2 => outs = [tagChunk mc l.ctx, doneChunk]
  | .spinMac | .enqueMac => ∃ m, l.mac_chunk = some m ∧ outs = [m, doneChunk]
  | .doneIsFull | .queueDone => outs = [doneChunk]
  | .fail _ => True
  | .returned => outs = []

/-- The only producer of a queue still has the room it has seen. -/
def Ready (l : Local sk) (out : Queue) : Prop :=
  l.pc = .enque ∨ l.pc = .enqueMac ∨ l.pc = .queueDone → out.HasRoom

/-! ### The moves of the thread -/

/-- The branches of `step`. -/
inductive Moves (l : Local sk) (fl : Flags) (inq out : Queue) :
    Local sk → Flags → Queue → Queue → Prop
  | empty : l.pc = .guard1 → inq.front = none → Moves l fl inq out (enter mc l) fl inq out
  | notEmpty {c : Chunk} : l.pc = .guard1 → inq.front = some c →
      Moves l fl inq out { l with pc := .guard2 } fl inq out
  | notDone {c : Chunk} : l.pc = .guard2 → inq.front = some c → c.action ≠ .DONE →
      Moves l fl inq out (enter mc l) fl inq out
  | sawDone {c : Chunk} : l.pc = .guard2 → inq.front = some c → c.action = .DONE →
      Moves l fl inq out { l with pc := .tail1 } fl inq out
  | stillEmpty : l.pc = .guard3 → inq.front = none →
      Moves l fl inq out { l with pc := .guard1 } fl inq out
  | available {c : Chunk} : l.pc = .guard3 → inq.front = some c →
      Moves l fl inq out { l with pc := .fetch } fl inq out
  | nothing : l.pc = .fetch → inq.locked = false → inq.front = none →
      Moves l fl inq out { l with pc := .guard1, chunk_maced := false } fl inq out
  | taken {c : Chunk} : l.pc = .fetch → inq.locked = false → inq.front = some c →
      Moves l fl inq out (work mc { l with chunk_maced := false } c) fl inq.deque out
  | full : l.pc = .spin → out.queueIsFull = true → Moves l fl inq out l fl inq out
  | room : l.pc = .spin → out.HasRoom → Moves l fl inq out { l with pc := .enque } fl inq out
  | queued {c : Chunk} {out' : Queue} : l.pc = .enque → out.locked = false →
      l.update_chunk = some c → out.enque c = some out' →
      Moves l fl inq out { l with pc := .guard1, update_chunk := none } fl inq out'
  | notQueued : l.pc = .enque → out.locked = false → (l.update_chunk = none ∨ ¬ out.HasRoom) →
      Moves l fl inq out { l with pc := .guard1 } fl inq out
  | noTail : l.pc = .tail1 → inq.front = none →
      Moves l fl inq out { l with pc := .fail .MAC_GENERATION_FAIL } fl inq out
  | tail {c : Chunk} : l.pc = .tail1 → inq.front = some c →
      Moves l fl inq out { l with pc := .tail2 } fl inq out
  | final {c : Chunk} : l.pc = .tail2 → inq.front = some c → c.action = .DONE →
      Moves l fl inq out { l with pc := .spinMac, mac_chunk := some (tagChunk mc l.ctx) } fl inq out
  | notFinal {c : Chunk} : l.pc = .tail2 → inq.front = some c → c.action ≠ .DONE →
      Moves l fl inq out { l with pc := .fail .MAC_GENERATION_FAIL } fl inq out
  | macFull : l.pc = .spinMac → out.queueIsFull = true → Moves l fl inq out l fl inq out
  | macRoom : l.pc = .spinMac → out.HasRoom →
      Moves l fl inq out { l with pc := .enqueMac } fl inq out
  | macQueued {c : Chunk} {out' : Queue} : l.pc = .enqueMac → out.locked = false →
      l.mac_chunk = some c → out.enque c = some out' →
      Moves l fl inq out { l with pc := .doneIsFull } fl inq out'
  | macNotQueued : l.pc = .enqueMac → out.locked = false → (l.mac_chunk = none ∨ ¬ out.HasRoom) →
      Moves l fl inq out { l with pc := .doneIsFull }
        { fl with error := some .MAC_GENERATION_FAIL } inq out
  | doneFull : l.pc = .doneIsFull → out.queueIsFull = true → Moves l fl inq out l fl inq out
  | doneRoom : l.pc = .doneIsFull → out.HasRoom →
      Moves l fl inq out { l with pc := .queueDone } fl inq out
  | doneQueued {out' : Queue} : l.pc = .queueDone → out.locked = false →
      out.enque doneChunk = some out' → Moves l fl inq out { l with pc := .returned } fl inq out'
  | doneNotQueued : l.pc = .queueDone → out.locked = false → ¬ out.HasRoom →
      Moves l fl inq out { l with pc := .fail .QUEUE_OPERATION_FAIL } fl inq out.abandon
  | failed {code : Error} : l.pc = .fail code →
      Moves l fl inq out { l with pc := .returned } { fl with error := some code } inq out

variable {mc} {l l' : Local sk} {fl fl' : Flags} {inq inq' out out' : Queue}

theorem moves_of_step (h : step mc l fl inq out = some (l', fl', inq', out')) :
    Moves mc l fl inq out l' fl' inq' out' := by
  obtain ⟨pc, ctx, cm, uc, mch⟩ := l
  cases pc with
  | guard1 =>
    simp only [step] at h
    split at h <;> cases h
    next hf => exact .empty rfl hf
    next hf => exact .notEmpty rfl hf
  | guard2 =>
    obtain ⟨c, hf, hx⟩ := Option.map_eq_some_iff.mp h
    cases hx
    by_cases hd : c.action = .DONE
    · rw [if_neg (not_not.mpr hd)]; exact .sawDone rfl hf hd
    · rw [if_pos hd]; exact .notDone rfl hf hd
  | guard3 =>
    simp only [step] at h
    split at h <;> cases h
    next hf => exact .stillEmpty rfl hf
    next hf => exact .available rfl hf
  | fetch =>
    simp only [step] at h
    split at h
    · cases h
    next hl =>
      have hl' : inq.locked = false := by simpa using hl
      split at h <;> cases h
      next hf => exact .nothing rfl hl' hf
      next hf => exact .taken rfl hl' hf
  | spin =>
    cases h
    cases hf : out.queueIsFull with
    | true => exact .full rfl hf
    | false => exact .room rfl (hasRoom_iff.mpr hf)
  | enque =>
    simp only [step] at h
    split at h
    · cases h
    next hl =>
      have hl' : out.locked = false := by simpa using hl
      split at h
      next hq =>
        obtain ⟨c, hc, hq'⟩ := Option.bind_eq_some_iff.mp hq
        cases h; exact .queued rfl hl' hc hq'
      next hq =>
        cases h; exact .notQueued rfl hl' (bind_enque_eq_none hq)
  | tail1 =>
    simp only [step] at h
    split at h <;> cases h
    next hf => exact .noTail rfl hf
    next hf => exact .tail rfl hf
  | tail2 =>
    obtain ⟨c, hf, hx⟩ := Option.map_eq_some_iff.mp h
    cases hx
    by_cases hd : c.action = .DONE
    · rw [if_pos hd]; exact .final rfl hf hd
    · rw [if_neg hd]; exact .notFinal rfl hf hd
  | spinMac =>
    cases h
    cases hf : out.queueIsFull with
    | true => exact .macFull rfl hf
    | false => exact .macRoom rfl (hasRoom_iff.mpr hf)
  | enqueMac =>
    simp only [step] at h
    split at h
    · cases h
    next hl =>
      have hl' : out.locked = false := by simpa using hl
      split at h
      next hq =>
        obtain ⟨c, hc, hq'⟩ := Option.bind_eq_some_iff.mp hq
        cases h; exact .macQueued rfl hl' hc hq'
      next hq =>
        cases h; exact .macNotQueued rfl hl' (bind_enque_eq_none hq)
  | doneIsFull =>
    cases h
    cases hf : out.queueIsFull with
    | true => exact .doneFull rfl hf
    | false => exact .doneRoom rfl (hasRoom_iff.mpr hf)
  | queueDone =>
    simp only [step] at h
    split at h
    · cases h
    next hl =>
      have hl' : out.locked = false := by simpa using hl
      split at h
      next hq => cases h; exact .doneQueued rfl hl' hq
      next hq => cases h; exact .doneNotQueued rfl hl' fun hr => enque_ne_none hr hq
  | fail code => cases h; exact .failed rfl
  | returned => cases h

/-! ### What a step keeps -/

/-- The thread changes no flag but the error word, and never clears that. -/
theorem Moves.flags (h : Moves mc l fl inq out l' fl' inq' out') :
    fl' = fl ∨ ∃ code, fl' = { fl with error := some code } := by
  cases h <;> first | exact Or.inl rfl | exact Or.inr ⟨_, rfl⟩

/-- It only takes chunks out of its input queue. -/
theorem Moves.takes (h : Moves mc l fl inq out l' fl' inq' out') :
    inq' = inq ∨ inq' = inq.deque := by
  cases h <;> first | exact Or.inl rfl | exact Or.inr rfl

/-- The next thread only makes room. -/
theorem Ready.of_takes (htakes : out' = out ∨ out' = out.deque) (h : Ready l out) : Ready l out' :=
  fun hp => (h hp).of_takes htakes

variable (mc) in
/-- `work` leads to the queue or back to the loop guard. -/
theorem work_pc (l : Local sk) (c : Chunk) : (work mc l c).pc = .spin ∨ (work mc l c).pc = .guard1 := by
  unfold work
  split
  · exact Or.inl rfl
  · cases l.chunk_maced
    · exact Or.inr rfl
    · exact Or.inl rfl

variable (mc) in
theorem enter_pc (l : Local sk) :
    (enter mc l).pc = .guard3 ∨ (enter mc l).pc = .spin ∨ (enter mc l).pc = .guard1 := by
  unfold enter
  split
  · exact Or.inl rfl
  · exact Or.inr (work_pc mc _ _)

theorem Moves.ready (h : Moves mc l fl inq out l' fl' inq' out') : Ready l' out' := by
  intro hp
  cases h with
  | empty _ _ => rcases enter_pc mc l with h | h | h <;> simp [h] at hp
  | notDone _ _ _ => rcases enter_pc mc l with h | h | h <;> simp [h] at hp
  | taken _ _ _ =>
    rename_i c _ _ _
    rcases work_pc mc { l with chunk_maced := false } c with h | h <;> simp [h] at hp
  | room _ hr => exact hr
  | macRoom _ hr => exact hr
  | doneRoom _ hr => exact hr
  | full h1 _ => simp [h1] at hp
  | macFull h1 _ => simp [h1] at hp
  | doneFull h1 _ => simp [h1] at hp
  | _ => simp at hp

/-- What the thread is about to put into its queue. -/
def put (l : Local sk) : Option Chunk :=
  match l.pc with
  | .enque => l.update_chunk
  | .enqueMac => l.mac_chunk
  | .queueDone => some doneChunk
  | _ => none

theorem pc_of_put (h : put l ≠ none) : l.pc = .enque ∨ l.pc = .enqueMac ∨ l.pc = .queueDone := by
  obtain ⟨pc, ctx, cm, uc, mch⟩ := l
  cases pc with
  | enque => exact Or.inl rfl
  | enqueMac => exact Or.inr (Or.inl rfl)
  | queueDone => exact Or.inr (Or.inr rfl)
  | _ => exact absurd rfl h

theorem Moves.produces (h : Moves mc l fl inq out l' fl' inq' out') : Produces (put l) (put l') out out' := by
  have hlooks : put l' ≠ none → out'.HasRoom := fun hput => h.ready (pc_of_put hput)
  cases h with
  | queued hp _ hc hq => exact .of_enque (by rw [put, hp]; exact hc) hq hlooks
  | notQueued hp _ hn => exact .of_kept (by rw [put, hp]; exact hn) hlooks
  | macQueued hp _ hc hq => exact .of_enque (by rw [put, hp]; exact hc) hq hlooks
  | macNotQueued hp _ hn => exact .of_kept (by rw [put, hp]; exact hn) hlooks
  | doneQueued hp _ hq => exact .of_enque (by rw [put, hp]) hq hlooks
  | doneNotQueued hp _ hn => exact .of_abandon (by rw [put, hp]) hn hlooks
  | _ => exact .of_kept (Or.inl (by simp [put, *])) hlooks

theorem step_of_put {c : Chunk} (hput : put l = some c) (hlock : out.locked = false) :
    ∃ x, step mc l fl inq out = some x := by
  obtain ⟨pc, ctx, cm, uc, mch⟩ := l
  cases pc with
  | enque => cases hq : uc.bind fun c => out.enque c <;> simp [step, hlock, hq]
  | enqueMac => cases hq : mch.bind fun c => out.enque c <;> simp [step, hlock, hq]
  | queueDone => cases hq : out.queueDone <;> simp [step, hlock, hq]
  | _ => cases hput

/-- The body of the loop does not change what is left to put out. -/
theorem rest_enter {ins outs : List Chunk}
    (hR : (l.update_chunk = none ∧ generateMAC mc l.ctx ins = some outs) ∨ (Swallowed l ∧ ins = [])) :
    Rest mc (enter mc l) ins outs := by
  obtain ⟨pc, ctx, cm, uc, mch⟩ := l
  rcases hR with ⟨hn, hg⟩ | ⟨⟨⟨c, hc, hd⟩, hm, -⟩, hi⟩
  · cases hn
    exact ⟨rfl, hg⟩
  · cases hc; cases hm
    have hw : enter mc ⟨pc, ctx, false, some c, mch⟩ = ⟨.guard1, ctx, false, some c, mch⟩ := by
      simp [enter, work, hd]
    rw [hw]
    exact Or.inr ⟨⟨⟨c, rfl, hd⟩, rfl, Or.inl rfl⟩, hi⟩

/-- While nothing disturbs it, the thread moves what it has still to put out
into its queue. -/
theorem Moves.rest (h : Moves mc l fl inq out l' fl' inq' out') (herr' : fl'.error = none)
    (hroom : Ready l out) {x outs : List Chunk} (hlast : DoneLast (inq.elements ++ x))
    (hR : Rest mc l (inq.elements ++ x) outs) :
    ∃ outs', Rest mc l' (inq'.elements ++ x) outs' ∧
      out'.elements ++ outs' = out.elements ++ outs := by
  obtain ⟨pc, ctx, cm, uc, mch⟩ := l
  cases h with
  | empty hp _ => cases hp; exact ⟨outs, rest_enter hR, rfl⟩
  | notEmpty hp hf =>
    cases hp
    refine ⟨outs, ?_, rfl⟩
    rcases hR with hR | ⟨-, hi⟩
    · exact Or.inl hR
    · rw [front_eq_some hf] at hi; cases hi
  | notDone hp _ _ => cases hp; exact ⟨outs, rest_enter hR, rfl⟩
  | sawDone hp hf hd =>
    cases hp
    rcases hR with ⟨-, hg⟩ | ⟨-, hi⟩
    · rw [front_eq_some hf, List.cons_append, generateMAC, if_pos hd] at hg
      exact ⟨outs, (Option.some.inj hg).symm, rfl⟩
    · rw [front_eq_some hf] at hi; cases hi
  | stillEmpty hp _ => cases hp; exact ⟨outs, Or.inl hR, rfl⟩
  | available hp _ => cases hp; exact ⟨outs, hR, rfl⟩
  | nothing hp _ _ => cases hp; exact ⟨outs, Or.inl hR, rfl⟩
  | @taken c hp _ hf =>
    cases hp
    obtain ⟨hn, hg⟩ := hR
    rw [front_eq_some hf, List.cons_append] at hg hlast
    refine ⟨outs, ?_, rfl⟩
    by_cases hd : c.action = .DONE
    · -- the end marker is swallowed: nothing follows it
      have hw : work mc ⟨.fetch, ctx, false, uc, mch⟩ c = ⟨.guard1, ctx, false, some c, mch⟩ := by
        simp [work, hd]
      rw [hw]
      exact Or.inr ⟨⟨⟨c, rfl, hd⟩, rfl, Or.inl rfl⟩, hlast [] c _ rfl hd⟩
    · rw [generateMAC, if_neg hd] at hg
      by_cases hm : c.action = .GEN_MAC
      · rw [if_pos hm] at hg
        obtain ⟨os, hos, rfl⟩ := Option.map_eq_some_iff.mp hg
        have hw : work mc ⟨.fetch, ctx, false, uc, mch⟩ c =
            ⟨.spin, sk.skeinUpdate ctx c.bytes, true, some (passed mc c), mch⟩ := by simp [work, hm]
        rw [hw]
        exact ⟨rfl, _, os, rfl, hos, rfl⟩
      · rw [if_neg hm] at hg; cases hg
  | full hp _ => cases hp; exact ⟨outs, hR, rfl⟩
  | room hp _ => cases hp; exact ⟨outs, hR, rfl⟩
  | queued hp _ hc hq =>
    cases hp; cases hc
    obtain ⟨-, c, os, hc, hos, rfl⟩ := hR
    cases hc
    exact ⟨os, Or.inl ⟨rfl, hos⟩, by rw [(enque_eq_some hq).1]; simp⟩
  | notQueued hp _ h =>
    cases hp
    obtain ⟨-, c, os, hc, hos, rfl⟩ := hR
    rcases h with h | h
    · exact absurd (hc.symm.trans h) nofun
    · exact absurd (hroom (Or.inl rfl)) h
  | noTail _ _ => exact ⟨outs, trivial, rfl⟩
  | tail hp _ => cases hp; exact ⟨outs, hR, rfl⟩
  | final hp _ _ => cases hp; exact ⟨outs, ⟨_, rfl, hR⟩, rfl⟩
  | notFinal _ _ _ => exact ⟨outs, trivial, rfl⟩
  | macFull hp _ => cases hp; exact ⟨outs, hR, rfl⟩
  | macRoom hp _ => cases hp; exact ⟨outs, hR, rfl⟩
  | macQueued hp _ hc hq =>
    cases hp; cases hc
    obtain ⟨m, hm, rfl⟩ := hR
    cases hm
    exact ⟨[doneChunk], rfl, by rw [(enque_eq_some hq).1]; simp⟩
  | macNotQueued _ _ _ => cases herr'
  | doneFull hp _ => cases hp; exact ⟨outs, hR, rfl⟩
  | doneRoom hp _ => cases hp; exact ⟨outs, hR, rfl⟩
  | doneQueued hp _ hq =>
    cases hp
    exact ⟨[], rfl, by rw [(enque_eq_some hq).1, show outs = [doneChunk] from hR]; simp⟩
  | doneNotQueued hp _ h => cases hp; exact absurd (hroom (Or.inr (Or.inr rfl))) h
  | failed _ => cases herr'

/-! ### The end marker -/

variable (l inq) in
/-- The thread has not found its queue empty only to take out a `DONE` that
came since: past the loop guard the queue does not start with `DONE`, and past
the guard of the fetch it is not empty. -/
structure Wary : Prop where
  front : l.pc = .guard3 ∨ l.pc = .fetch → ∀ c, inq.front = some c → c.action ≠ .DONE
  nonempty : l.pc = .fetch → inq.front ≠ none

theorem wary_of_ne (h3 : l.pc ≠ .guard3) (hf : l.pc ≠ .fetch) : Wary l inq where
  front := fun h => (h.elim h3 hf).elim
  nonempty := fun h => (hf h).elim

theorem wary_enter (h : ∀ c, inq.front = some c → c.action ≠ .DONE) : Wary (enter mc l) inq where
  front := fun _ => h
  nonempty := fun hp => by
    rcases enter_pc mc l with h | h | h <;> cases h.symm.trans hp

/-- The thread stays wary by itself, and then leaves `DONE` where it is. -/
theorem Moves.wary (h : Moves mc l fl inq out l' fl' inq' out') (hW : Wary l inq) :
    Wary l' inq' ∧ (inq.HasDone → inq'.HasDone) := by
  cases h with
  | empty _ hf => exact ⟨wary_enter fun c hc => (nomatch hf.symm.trans hc), id⟩
  | notDone _ hf hd =>
    refine ⟨wary_enter fun c hc => ?_, id⟩
    cases hf.symm.trans hc
    exact hd
  | available hp hf =>
    exact ⟨⟨fun _ => hW.front (Or.inl hp), fun _ hn => (nomatch hf.symm.trans hn)⟩, id⟩
  | nothing hp _ hf => exact (hW.nonempty hp hf).elim
  | @taken c hp _ hf =>
    refine ⟨?_, fun ⟨d, hd, hdone⟩ => ?_⟩
    · rcases work_pc mc { l with chunk_maced := false } c with h | h <;>
        exact wary_of_ne (by rw [h]; nofun) (by rw [h]; nofun)
    · -- what is taken out is not `DONE`
      rw [front_eq_some hf] at hd
      rcases List.mem_cons.mp hd with rfl | hd
      · exact absurd hdone (hW.front (Or.inr hp) d hf)
      · exact ⟨d, hd, hdone⟩
  | full hp _ => exact ⟨wary_of_ne (by rw [hp]; nofun) (by rw [hp]; nofun), id⟩
  | macFull hp _ => exact ⟨wary_of_ne (by rw [hp]; nofun) (by rw [hp]; nofun), id⟩
  | doneFull hp _ => exact ⟨wary_of_ne (by rw [hp]; nofun) (by rw [hp]; nofun), id⟩
  | _ => exact ⟨wary_of_ne nofun nofun, id⟩

/-- It stays wary when its producer queues a chunk, unless that is `DONE`, the
queue is empty and the thread has just seen that it is. -/
theorem Wary.enque {c : Chunk} (hW : Wary l inq) (hq : enque c inq = some inq')
    (hok : c.action = .DONE → l.pc = .guard3 → inq.front ≠ none) : Wary l inq' := by
  have hel := (enque_eq_some hq).1
  cases hf : inq.front with
  | some d =>
    have hf' : inq'.front = some d := by
      rw [Queue.front, hel, front_eq_some hf]; rfl
    exact
      { front := fun hp e he => hW.front hp e (by rw [hf, ← hf', he])
        nonempty := fun _ hn => by cases hf'.symm.trans hn }
  | none =>
    have hf' : inq'.front = some c := by
      rw [Queue.front, hel, front_eq_none hf]; rfl
    exact
      { front := fun hp e he hd => by
          cases hf'.symm.trans he
          rcases hp with hp | hp
          · exact hok hd hp hf
          · exact hW.nonempty hp hf
        nonempty := fun _ hn => by cases hf'.symm.trans hn }

/-! ### What the thread may still put out -/

/-- What is about to be queued is not `DONE`. -/
structure Carrying (l : Local sk) : Prop where
  data : l.chunk_maced = true → ∀ c, l.update_chunk = some c → c.action ≠ .DONE
  maced : l.pc = .spin ∨ l.pc = .enque → l.chunk_maced = true
  tag : ∀ c, l.mac_chunk = some c → c.action ≠ .DONE

theorem carrying_work (hact : mc.out_action ≠ .DONE) {c : Chunk} (hc : l.chunk_maced = true → c.action ≠ .DONE)
    (htag : ∀ c, l.mac_chunk = some c → c.action ≠ .DONE) : Carrying (work mc l c) := by
  unfold work
  split
  next => exact ⟨fun _ d hd => Option.some.inj hd ▸ hact, fun _ => rfl, htag⟩
  next =>
    refine ⟨fun hm d hd => Option.some.inj hd ▸ hc hm, fun hp => ?_, htag⟩
    cases hm : l.chunk_maced with
    | true => rfl
    | false => simp [hm] at hp

theorem carrying_enter (hact : mc.out_action ≠ .DONE) (hC : Carrying l) : Carrying (enter mc l) := by
  unfold enter
  split
  next => exact ⟨hC.data, nofun, hC.tag⟩
  next c hc => exact carrying_work hact (fun hm => hC.data hm c hc) hC.tag

theorem Moves.carrying (h : Moves mc l fl inq out l' fl' inq' out') (hact : mc.out_action ≠ .DONE)
    (hC : Carrying l) : Carrying l' := by
  cases h with
  | empty _ _ => exact carrying_enter hact hC
  | notDone _ _ _ => exact carrying_enter hact hC
  | nothing _ _ _ => exact ⟨nofun, nofun, hC.tag⟩
  | taken _ _ _ => exact carrying_work hact nofun hC.tag
  | full _ _ => exact hC
  | room hp _ => exact ⟨hC.data, fun _ => hC.maced (Or.inl hp), hC.tag⟩
  | queued _ _ _ _ => exact ⟨fun _ => nofun, nofun, hC.tag⟩
  | final _ _ _ => exact ⟨hC.data, nofun, fun c hc => Option.some.inj hc ▸ nofun⟩
  | macFull _ _ => exact hC
  | doneFull _ _ => exact hC
  | _ => exact ⟨hC.data, nofun, hC.tag⟩

theorem Moves.not_returned (h : Moves mc l fl inq out l' fl' inq' out') : l.pc ≠ .returned := by
  cases h <;> simp_all

/-- `DONE` is the last thing the thread puts out. -/
theorem Moves.done_last (h : Moves mc l fl inq out l' fl' inq' out') (hC : Carrying l)
    (hd : out'.HasDone) : out.HasDone ∨ l'.pc = .returned := by
  cases h with
  | queued hp _ hc hq =>
    exact (hasDone_enque hq hd).imp id fun h => absurd h (hC.data (hC.maced (Or.inr hp)) _ hc)
  | macQueued _ _ hc hq => exact (hasDone_enque hq hd).imp id fun h => absurd h (hC.tag _ hc)
  | doneQueued _ _ _ => exact Or.inr rfl
  | _ => exact Or.inl hd

/-- The thread is past its loop. -/
def Ends (l : Local sk) : Prop :=
  match l.pc with
  | .guard1 | .guard2 | .guard3 | .fetch | .spin | .enque => False
  | _ => True

theorem not_ends_work (c : Chunk) : ¬ Ends (work mc l c) := by
  unfold Ends
  rcases work_pc mc l c with h | h <;> rw [h] <;> exact id

theorem not_ends_enter : ¬ Ends (enter mc l) := by
  unfold Ends
  rcases enter_pc mc l with h | h | h <;> rw [h] <;> exact id

/-- It comes to its end by `DONE` alone. -/
theorem Moves.ends (h : Moves mc l fl inq out l' fl' inq' out') (he : Ends l') : Ends l ∨ inq.HasDone := by
  obtain ⟨pc, ctx, cm, uc, mch⟩ := l
  cases h with
  | empty _ _ => exact absurd he not_ends_enter
  | notDone _ _ _ => exact absurd he not_ends_enter
  | sawDone _ hf hd =>
    refine Or.inr ⟨_, ?_, hd⟩
    rw [front_eq_some hf]
    exact List.mem_cons_self
  | taken _ _ _ => exact absurd he (not_ends_work _)
  | full _ _ => exact Or.inl he
  | macFull _ _ => exact Or.inl he
  | doneFull _ _ => exact Or.inl he
  | _ hp => cases hp; first | exact Or.inl trivial | exact he.elim

/-- The number of chunks of data in hand, the tag included. -/
def load (l : Local sk) : ℕ :=
  l.update_chunk.toList.countP (·.action ≠ .DONE) +
    match l.pc with
    | .doneIsFull | .queueDone | .fail _ | .returned => 0
    | _ => 1

variable (mc) in
theorem load_work (l : Local sk) (c : Chunk) : load (work mc l c) ≤ [c].countP (·.action ≠ .DONE) + 1 := by
  have hpc : (match (work mc l c).pc with
      | .doneIsFull | .queueDone | .fail _ | .returned => 0
      | _ => 1) = 1 := by
    rcases work_pc mc l c with h | h <;> rw [h]
  unfold load
  rw [hpc]
  refine Nat.add_le_add_right ?_ 1
  unfold work
  split
  next hg =>
    have h1 : [c].countP (·.action ≠ .DONE) = 1 := by simp [hg.1]
    rw [h1]
    exact List.countP_le_length
  next => exact le_rfl

theorem load_enter (hp : l.pc = .guard1 ∨ l.pc = .guard2) : load (enter mc l) ≤ load l := by
  have hl : load l = l.update_chunk.toList.countP (·.action ≠ .DONE) + 1 := by
    unfold load
    rcases hp with hp | hp <;> rw [hp]
  unfold enter
  split
  next hn => rw [hl]; exact le_rfl
  next c hc => rw [hl, hc]; exact load_work mc l c

/-- The thread makes no more chunks out of those it is given, but for the tag. -/
theorem Moves.load (h : Moves mc l fl inq out l' fl' inq' out') :
    out'.data + GenerateThread.load l' + inq'.data ≤ out.data + GenerateThread.load l + inq.data := by
  obtain ⟨pc, ctx, cm, uc, mch⟩ := l
  cases h with
  | empty hp _ => exact Nat.add_le_add_right (Nat.add_le_add_left (load_enter (Or.inl hp)) _) _
  | notDone hp _ _ => exact Nat.add_le_add_right (Nat.add_le_add_left (load_enter (Or.inr hp)) _) _
  | @taken c hp _ hf =>
    have hw := load_work mc ⟨pc, ctx, false, uc, mch⟩ c
    have hq : inq.data = [c].countP (·.action ≠ .DONE) + inq.deque.data := by
      rw [Queue.data, front_eq_some hf, ← List.singleton_append, List.countP_append]
      rfl
    have hl : 1 ≤ GenerateThread.load ⟨pc, ctx, cm, uc, mch⟩ := by
      cases hp
      exact Nat.le_add_left _ _
    show _ + GenerateThread.load (work mc ⟨pc, ctx, false, uc, mch⟩ c) + _ ≤ _
    omega
  | full _ _ => exact le_rfl
  | @queued c _ hp _ hc hq =>
    have hd := data_enque hq
    cases hp; cases hc
    show _ + (0 + 1) + _ ≤ _ + ([c].countP (·.action ≠ .DONE) + 1) + _
    omega
  | macFull _ _ => exact le_rfl
  | macQueued hp _ _ hq =>
    have := data_enque_le hq
    cases hp
    simp only [GenerateThread.load]
    omega
  | doneFull _ _ => exact le_rfl
  | doneQueued hp _ hq => cases hp; rw [data_enque_done hq]; exact le_rfl
  | doneNotQueued hp _ _ => cases hp; exact le_rfl
  | _ hp => cases hp; simp only [GenerateThread.load]; omega

/-- The thread leaves the mutex of its queue free. -/
theorem Moves.opens (h : Moves mc l fl inq out l' fl' inq' out') (hroom : Ready l out) {n : ℕ}
    (ho : out.Open n) : out'.Open n :=
  h.produces.opens (fun hput => hroom (pc_of_put hput)) ho

/-! ### The end of the thread -/

/-- Between two chunks there is none in hand; the tag is in hand until it is
queued. -/
def Steady (l : Local sk) : Prop :=
  match l.pc with
  | .guard1 | .guard2 | .guard3 | .fetch => l.update_chunk = none
  | .spinMac | .enqueMac => l.mac_chunk ≠ none
  | _ => True

theorem steady_enter (hn : l.update_chunk = none) : Steady (enter mc l) := by
  have : enter mc l = { l with pc := .guard3 } := by simp [enter, hn]
  rw [this]
  exact hn

theorem work_genMac {c : Chunk} (hc : c.action = .GEN_MAC) (hm : l.chunk_maced = false) :
    (work mc l c).pc = .spin := by
  simp [work, hc, hm]

theorem Moves.steady (h : Moves mc l fl inq out l' fl' inq' out') (hroom : Ready l out) (hW : Wary l inq)
    (hin : ∀ c ∈ inq.elements, c.action = .GEN_MAC ∨ c.action = .DONE) (hS : Steady l) : Steady l' := by
  obtain ⟨pc, ctx, cm, uc, mch⟩ := l
  cases h with
  | empty hp _ => cases hp; exact steady_enter hS
  | notDone hp _ _ => cases hp; exact steady_enter hS
  | @taken c hp _ hf =>
    have hc : c.action = .GEN_MAC := (hin c (by rw [front_eq_some hf]; exact List.mem_cons_self)).resolve_right
      (hW.front (Or.inr hp) c hf)
    unfold Steady
    rw [work_genMac hc rfl]
    trivial
  | full _ _ => exact hS
  | notQueued hp _ h => exact h.resolve_right (not_not.mpr (hroom (Or.inl hp)))
  | queued _ _ _ _ => rfl
  | final _ _ _ => exact Option.some_ne_none _
  | macFull _ _ => exact hS
  | doneFull _ _ => exact hS
  | _ hp => cases hp; first | exact hS | trivial

/-- An error is set by a thread that is at a `fail`. -/
theorem Moves.keeps_error (h : Moves mc l fl inq out l' fl' inq' out') (hroom : Ready l out) (hS : Steady l)
    (hl : ∀ code, l.pc ≠ .fail code) : fl'.error = fl.error := by
  cases h with
  | macNotQueued hp _ hn =>
    have htag : l.mac_chunk ≠ none := by
      unfold Steady at hS
      rwa [hp] at hS
    exact (hn.elim htag fun hn => hn (hroom (Or.inr (Or.inl hp)))).elim
  | failed hp => exact absurd hp (hl _)
  | _ => rfl

/-- How far the thread is from its end when `DONE` is in its queue. -/
def rank (l : Local sk) (inq : Queue) : ℕ :=
  6 * inq.elements.length +
    match l.pc with
    | .spin => 10
    | .enque => 9
    | .guard1 => 8
    | .guard2 => 7
    | .guard3 => if inq.elements = [] then 9 else 6
    | .fetch => 5
    | .tail1 => 6
    | .tail2 => 5
    | .spinMac => 4
    | .enqueMac => 3
    | .doneIsFull => 2
    | .queueDone | .fail _ => 1
    | .returned => 0

/-- One chunk more takes six steps more at most. -/
theorem rank_enque {c : Chunk} (hq : enque c inq = some inq') : rank l inq' ≤ rank l inq + 6 := by
  have hel := (enque_eq_some hq).1
  unfold rank
  rw [hel, List.length_append, List.length_singleton]
  cases l.pc <;> simp only [] <;> try omega
  rw [if_neg (by simp)]
  split <;> omega

/-- A thread that has found its queue empty twice goes back to its loop guard. -/
theorem progress_empty (hp : l.pc = .guard3) (hempty : inq.front = none) :
    ∃ l', step mc l fl inq out = some (l', fl, inq, out) ∧ rank l' inq < rank l inq := by
  refine ⟨{ l with pc := .guard1 }, by simp [step, hp, hempty], ?_⟩
  simp [rank, hp, front_eq_none hempty]

/-- With a chunk in its queue and room in the other the thread comes nearer to
its end. -/
theorem progress (hroom : out.HasRoom) (hin : inq.locked = false) (hlock : out.locked = false)
    (hne : inq.elements ≠ []) (hW : Wary l inq) (hS : Steady l)
    (hgen : ∀ c ∈ inq.elements, c.action = .GEN_MAC ∨ c.action = .DONE) (hp : l.pc ≠ .returned) :
    ∃ l' fl' inq' out', step mc l fl inq out = some (l', fl', inq', out') ∧ rank l' inq' < rank l inq := by
  obtain ⟨pc, ctx, cm, uc, mch⟩ := l
  have hfull := hasRoom_iff.mp hroom
  obtain ⟨c, hf⟩ : ∃ c, inq.front = some c := by
    cases hf : inq.front with
    | some c => exact ⟨c, rfl⟩
    | none => exact absurd (front_eq_none hf) hne
  have hlen := congrArg List.length (front_eq_some hf)
  rw [List.length_cons] at hlen
  cases pc with
  | guard1 => simp [step, hf, rank]
  | guard2 =>
    by_cases hd : c.action = .DONE
    · simp [step, hf, hd, rank]
    · have hn : uc = none := hS
      simp [step, hf, hd, enter, hn, rank, hne]
  | guard3 => simp [step, hf, rank, hne]
  | fetch =>
    have hc : c.action = .GEN_MAC := (hgen c (by rw [front_eq_some hf]; exact List.mem_cons_self)).resolve_right
      (hW.front (Or.inr rfl) c hf)
    simp only [step, hin, hf]
    refine ⟨_, _, _, _, rfl, ?_⟩
    simp only [rank, (work_genMac hc rfl : (work mc ⟨.fetch, ctx, false, uc, mch⟩ c).pc = .spin)]
    omega
  | spin => simp [step, hfull, rank]
  | enque => cases hq : uc.bind fun c => out.enque c <;> simp [step, hlock, hq, rank]
  | tail1 => simp [step, hf, rank]
  | tail2 => by_cases hd : c.action = .DONE <;> simp [step, hf, hd, rank]
  | spinMac => simp [step, hfull, rank]
  | enqueMac => cases hq : mch.bind fun c => out.enque c <;> simp [step, hlock, hq, rank]
  | doneIsFull => simp [step, hfull, rank]
  | queueDone =>
    obtain ⟨out', hq⟩ := enque_of_room doneChunk hroom
    simp [step, hlock, queueDone, hq, rank]
  | fail code => simp [step, rank]
  | returned => exact absurd rfl hp

end GenerateThread

end Threefizer
