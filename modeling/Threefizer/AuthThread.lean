/-
# The thread that checks the tag (`authenticateMAC` of `macThread.c`)

The first loop takes chunks out of the input queue, checks the first one as
the header, feeds each to the MAC and passes it on; it ends at a chunk with
the action `MAC`, which stays in the queue, or `DONE`. The second loop takes
that chunk out. If it holds the tag that was calculated, the thread puts in
`DONE`, otherwise it sets `MAC_CHECK_FAIL`. Both loops also end when `running`
is cleared or an error is set, and then there is no stored tag to compare.

`authenticateMAC` is what the thread does when it is run alone. `Rest` says
what it has still to put out when the tag chunk `m` follows the data, and
`Sees` that in its second loop it has the MAC of all the data and will find
`m` at the front of its queue.
-/
import Threefizer.ReadThread
import Threefizer.TfHeader

namespace Threefizer

open Words Queue

namespace AuthThread

variable {sk : Skein} (tf : Threefish) (tf_key : ThreefishKey) (mc : MacCtx sk)

/-- The size in the header of a chunk, if the header is valid: the check runs
on a decrypted copy. -/
def headerSize (c : Chunk) : Option ℕ :=
  let test_header := c.data.take (2 * tf_key.stateSize.words)
  checkHeader ((decryptHeader tf tf_key test_header).getD test_header) tf_key.stateSize

/-- A chunk that is passed on. -/
def passed (c : Chunk) : Chunk := { c with action := mc.out_action }

/-- The chunks fed to the MAC one after the other. -/
def feed (ctx : sk.Ctx) (cs : List Chunk) : sk.Ctx := cs.foldl (fun x c => sk.skeinUpdate x c.bytes) ctx

/-- The word by word comparison of the two tags. -/
def tagsEqual (calculated_mac stored_mac : List Word) : Bool :=
  (List.range (mc.digest_byte_size / 8)).all fun i =>
    calculated_mac.getD i 0 == stored_mac.getD i 0

/-- Tags of the size of the digest are compared in full. -/
theorem eq_of_tagsEqual {mc : MacCtx sk} {a b : List Word} (ha : a.length = mc.digest_byte_size / 8)
    (hb : b.length = mc.digest_byte_size / 8) (h : tagsEqual mc a b = true) : a = b := by
  refine List.ext_getElem (ha.trans hb.symm) fun i hi hi' => ?_
  have hi'' := List.all_eq_true.mp h i (List.mem_range.mpr (ha ▸ hi))
  simpa [List.getD_eq_getElem?_getD, hi, hi'] using hi''

theorem tagsEqual_self {mc : MacCtx sk} (a : List Word) : tagsEqual mc a a = true := by
  simp [tagsEqual]

/-- A chunk that ends the first loop. -/
def isLast (c : Chunk) : Bool := c.action == .MAC || c.action == .DONE

/-- What a run alone ends with: the chunks put out, the size of a valid
header, and the error word. -/
structure Outcome where
  outs : List Chunk
  file_size : Option ℕ
  error : Option Error
  deriving DecidableEq, Repr

/-- The second loop on the chunks left in the queue; none when it does not
return. -/
def checkTag (ctx : sk.Ctx) : List Chunk → Option (List Chunk × Option Error)
  | [] => none
  | m :: _ =>
    if m.action = .MAC ∧ tagsEqual mc (sk.skeinFinal ctx) m.data = true then some ([doneChunk], none)
    else some ([], some .MAC_CHECK_FAIL)

/-- The first loop past the header and what follows it. -/
def macLoop (ctx : sk.Ctx) : List Chunk → Option (List Chunk × Option Error)
  | [] => none
  | c :: cs =>
    if c.action = .MAC then checkTag mc ctx (c :: cs)
    else if c.action = .DONE then checkTag mc ctx cs
    else (macLoop (sk.skeinUpdate ctx c.bytes) cs).map fun (outs, e) => (passed mc c :: outs, e)

/-- `authenticateMAC` alone on the chunks of its input queue; none when it
does not return. -/
def authenticateMAC : List Chunk → Option Outcome
  | [] => none
  | c :: cs =>
    if isLast c then (macLoop mc mc.skein_context (c :: cs)).map fun (outs, e) => ⟨outs, none, e⟩
    else match headerSize tf tf_key c with
      | none => some ⟨[], none, some .HEADER_CHECK_FAIL⟩
      | some n => (macLoop mc mc.skein_context (c :: cs)).map fun (outs, e) => ⟨outs, some n, e⟩

/-! ### The thread -/

/-- Where the thread stands. -/
inductive Pc
  | testRunning | testError | fetch | headerAlloc | setValid | tryFull | spin | enque
  | macAlloc | test2Running | test2Error | peek | fetch2
  | doneIsFull | queueDone
  | fail (code : Error)
  | returned
  deriving DecidableEq, Repr

/-- The local variables, with the state of the MAC. -/
structure Local (sk : Skein) where
  pc : Pc
  header : Bool
  maced : Bool
  mac_chunk : Option Chunk
  ctx : sk.Ctx
  calculated_mac : List Word
  stored_mac_chunk : Option Chunk

def Local.init : Local sk := ⟨.testRunning, true, false, none, mc.skein_context, [], none⟩

/-- The MAC of a chunk, up to the attempt to queue it. -/
def mac (l : Local sk) (c : Chunk) : Local sk :=
  if l.maced then { l with pc := .tryFull, mac_chunk := some c }
  else
    { l with
      pc := .tryFull
      maced := true
      mac_chunk := some (passed mc c)
      ctx := sk.skeinUpdate l.ctx c.bytes }

/-- What is done with a chunk up to the first thing that concerns others. -/
def work (l : Local sk) (c : Chunk) : Local sk :=
  if isLast c then { l with pc := .macAlloc, mac_chunk := some c }
  else if l.header then { l with pc := .headerAlloc, mac_chunk := some c }
  else mac mc l c

/-- What the comparison of the tags leads to. -/
def compare (l : Local sk) (m : Chunk) : Local sk :=
  { l with
    stored_mac_chunk := some m
    pc := if m.action = .MAC ∧ tagsEqual mc l.calculated_mac m.data = true then .doneIsFull
      else .fail .MAC_CHECK_FAIL }

/-- One step of the thread; the outcome is that of the `calloc`s. -/
def step (l : Local sk) (fl : Flags) (inq out : Queue) (o : Threefizer.Outcome) :
    Option (Local sk × Flags × Queue × Queue) :=
  match l.pc with
  | .testRunning =>
    some ({ l with pc := if fl.running then .testError else .macAlloc }, fl, inq, out)
  | .testError =>
    if fl.error = none then
      match l.mac_chunk with
      | none => some ({ l with pc := .fetch }, fl, inq, out)
      | some c => some (work mc l c, fl, inq, out)
    else some ({ l with pc := .macAlloc }, fl, inq, out)
  | .fetch =>
    if inq.locked then none
    else match inq.front with
      | none => some ({ l with pc := .testRunning }, fl, inq, out)
      | some c => some (work mc l c, fl, if c.action ≠ .MAC then inq.deque else inq, out)
  | .headerAlloc => l.mac_chunk.map fun c =>
    match o with
    | .failure _ => ({ l with pc := .fail .MEMORY_ALLOCATION_FAIL }, fl, inq, out)
    | .success =>
      match headerSize tf tf_key c with
      | some n => ({ l with pc := .setValid }, { fl with new_file_size := n }, inq, out)
      | none => ({ l with pc := .fail .HEADER_CHECK_FAIL }, fl, inq, out)
  | .setValid => l.mac_chunk.map fun c =>
      (mac mc { l with header := false } c, { fl with valid := true }, inq, out)
  | .tryFull => some ({ l with pc := if out.queueIsFull then .testRunning else .spin }, fl, inq, out)
  | .spin => some ({ l with pc := if out.queueIsFull then .spin else .enque }, fl, inq, out)
  | .enque =>
    if out.locked then none
    else match l.mac_chunk.bind fun c => out.enque c with
      | some out' =>
        some ({ l with pc := .testRunning, maced := false, mac_chunk := none }, fl, inq, out')
      | none => some ({ l with pc := .testRunning }, fl, inq, out)
  | .macAlloc =>
    match o with
    | .success =>
      some ({ l with pc := .test2Running, calculated_mac := sk.skeinFinal l.ctx }, fl, inq, out)
    | .failure _ => some ({ l with pc := .fail .MEMORY_ALLOCATION_FAIL }, fl, inq, out)
  | .test2Running =>
    some ({ l with pc := if fl.running then .test2Error else .fail .MAC_CHECK_FAIL }, fl, inq, out)
  | .test2Error =>
    some ({ l with pc := if fl.error = none then .peek else .fail .MAC_CHECK_FAIL }, fl, inq, out)
  | .peek =>
    match inq.front with
    | none => some ({ l with pc := .test2Running }, fl, inq, out)
    | some _ => some ({ l with pc := .fetch2 }, fl, inq, out)
  | .fetch2 =>
    if inq.locked then none
    else match inq.front with
      | none => some ({ l with pc := .test2Running }, fl, inq, out)
      | some m => some (compare mc l m, fl, inq.deque, out)
  | .doneIsFull =>
    some ({ l with pc := if out.queueIsFull then .doneIsFull else .queueDone }, fl, inq, out)
  | .queueDone =>
    if out.locked then none
    else match out.queueDone with
      | some out' => some ({ l with pc := .returned }, fl, inq, out')
      | none => some ({ l with pc := .fail .QUEUE_OPERATION_FAIL }, fl, inq, out.abandon)
  | .fail code => some ({ l with pc := .returned }, { fl with error := some code }, inq, out)
  | .returned => none

/-- The thread has compared the stored tag with the one it calculated and
found them equal. -/
def Accepted (l : Local sk) : Prop :=
  ∃ m ∈ l.stored_mac_chunk, m.action = .MAC ∧ tagsEqual mc l.calculated_mac m.data = true

instance (l : Local sk) : Decidable (Accepted mc l) := inferInstanceAs (Decidable (∃ _ ∈ _, _))

/-- The only producer of a queue still has the room it has seen. -/
def Ready (l : Local sk) (out : Queue) : Prop := l.pc = .enque ∨ l.pc = .queueDone → out.HasRoom

/-- The input left is the data `ds`, the chunk `m` with the tag and `DONE`. -/
def Left (m : Chunk) (ds ins : List Chunk) : Prop :=
  (∀ d ∈ ds, isLast d = false) ∧ ins = ds ++ [m, doneChunk]

/-- Between two chunks; the first of all is `hd`, and `final` is what is MACed
at the end. -/
def Waits (hd m : Chunk) (final : sk.Ctx) (l : Local sk) (ins outs : List Chunk) : Prop :=
  l.mac_chunk = none ∧ l.maced = false ∧ ∃ ds, Left m ds ins ∧ feed l.ctx ds = final ∧
    outs = ds.map (passed mc) ++ [doneChunk] ∧ (l.header = true → ds.head? = some hd)

/-- With a chunk that is MACed and not yet put out. -/
def Holds (m : Chunk) (final : sk.Ctx) (l : Local sk) (ins outs : List Chunk) : Prop :=
  l.maced = true ∧ l.header = false ∧ ∃ c ds, l.mac_chunk = some c ∧ isLast c = false ∧
    Left m ds ins ∧ feed l.ctx ds = final ∧ outs = c :: ds.map (passed mc) ++ [doneChunk]

/-- With the header, which is not yet MACed. -/
def Checks (hd m : Chunk) (final : sk.Ctx) (l : Local sk) (ins outs : List Chunk) : Prop :=
  l.maced = false ∧ l.mac_chunk = some hd ∧ ∃ ds, Left m ds ins ∧ feed l.ctx (hd :: ds) = final ∧
    outs = passed mc hd :: ds.map (passed mc) ++ [doneChunk]

/-- The chunks the thread has still to put out if nothing stops it and `ins`
is what it is given. -/
def Rest (hd m : Chunk) (final : sk.Ctx) (l : Local sk) (ins outs : List Chunk) : Prop :=
  match l.pc with
  | .testRunning | .testError => Waits mc hd m final l ins outs ∨ Holds mc m final l ins outs
  | .fetch => Waits mc hd m final l ins outs
  | .headerAlloc | .setValid => l.header = true ∧ Checks mc hd m final l ins outs
  | .tryFull | .spin | .enque => Holds mc m final l ins outs
  | .macAlloc | .test2Running | .test2Error | .peek | .fetch2 | .doneIsFull | .queueDone =>
    l.header = false ∧ outs = [doneChunk]
  | .fail _ => True
  | .returned => outs = []

/-- In the second loop, as long as the tests do not stop it: the chunk `m` is
at the front of the queue and the MAC is that of all the data. -/
def Sees (m : Chunk) (final : sk.Ctx) (l : Local sk) (fl : Flags) (inq : Queue) : Prop :=
  match l.pc with
  | .macAlloc => fl.running = true → fl.error = none → inq.front = some m ∧ l.ctx = final
  | .test2Running => fl.running = true → fl.error = none →
      inq.front = some m ∧ l.calculated_mac = sk.skeinFinal final
  | .test2Error => fl.error = none → inq.front = some m ∧ l.calculated_mac = sk.skeinFinal final
  | .peek | .fetch2 => inq.front = some m ∧ l.calculated_mac = sk.skeinFinal final
  | _ => True

/-- A chunk compared was the one with the tag, and it was compared with the
MAC of all the data. -/
def Verdict (m : Chunk) (final : sk.Ctx) (l : Local sk) : Prop :=
  match l.pc with
  | .doneIsFull | .queueDone | .fail _ | .returned => ∀ m', l.stored_mac_chunk = some m' →
      m' = m ∧ l.calculated_mac = sk.skeinFinal final
  | _ => l.stored_mac_chunk = none

/-- The thread puts in `DONE`, or returns with no error, only if it has accepted. -/
def Judged (l : Local sk) (fl : Flags) : Prop :=
  match l.pc with
  | .doneIsFull | .queueDone => Accepted mc l
  | .returned => fl.error ≠ none ∨ Accepted mc l
  | _ => True

/-! ### The moves of the thread -/

/-- The branches of `step`. -/
inductive Moves (l : Local sk) (fl : Flags) (inq out : Queue) :
    Local sk → Flags → Queue → Queue → Prop
  | running : l.pc = .testRunning → fl.running = true →
      Moves l fl inq out { l with pc := .testError } fl inq out
  | stopped : l.pc = .testRunning → fl.running = false →
      Moves l fl inq out { l with pc := .macAlloc } fl inq out
  | empty : l.pc = .testError → fl.error = none → l.mac_chunk = none →
      Moves l fl inq out { l with pc := .fetch } fl inq out
  | kept {c : Chunk} : l.pc = .testError → fl.error = none → l.mac_chunk = some c →
      Moves l fl inq out (work mc l c) fl inq out
  | error : l.pc = .testError → fl.error ≠ none →
      Moves l fl inq out { l with pc := .macAlloc } fl inq out
  | nothing : l.pc = .fetch → inq.locked = false → inq.front = none →
      Moves l fl inq out { l with pc := .testRunning } fl inq out
  | taken {c : Chunk} : l.pc = .fetch → inq.locked = false → inq.front = some c → c.action ≠ .MAC →
      Moves l fl inq out (work mc l c) fl inq.deque out
  | seen {c : Chunk} : l.pc = .fetch → inq.locked = false → inq.front = some c → c.action = .MAC →
      Moves l fl inq out (work mc l c) fl inq out
  | headerNotAllocated : l.pc = .headerAlloc →
      Moves l fl inq out { l with pc := .fail .MEMORY_ALLOCATION_FAIL } fl inq out
  | headerGood {c : Chunk} {n : ℕ} : l.pc = .headerAlloc → l.mac_chunk = some c →
      headerSize tf tf_key c = some n →
      Moves l fl inq out { l with pc := .setValid } { fl with new_file_size := n } inq out
  | headerBad {c : Chunk} : l.pc = .headerAlloc → l.mac_chunk = some c →
      headerSize tf tf_key c = none →
      Moves l fl inq out { l with pc := .fail .HEADER_CHECK_FAIL } fl inq out
  | setValid {c : Chunk} : l.pc = .setValid → l.mac_chunk = some c →
      Moves l fl inq out (mac mc { l with header := false } c) { fl with valid := true } inq out
  | tryFull : l.pc = .tryFull → out.queueIsFull = true →
      Moves l fl inq out { l with pc := .testRunning } fl inq out
  | tryRoom : l.pc = .tryFull → out.HasRoom → Moves l fl inq out { l with pc := .spin } fl inq out
  | full : l.pc = .spin → out.queueIsFull = true → Moves l fl inq out l fl inq out
  | room : l.pc = .spin → out.HasRoom → Moves l fl inq out { l with pc := .enque } fl inq out
  | queued {c : Chunk} {out' : Queue} : l.pc = .enque → out.locked = false →
      l.mac_chunk = some c → out.enque c = some out' →
      Moves l fl inq out { l with pc := .testRunning, maced := false, mac_chunk := none } fl inq out'
  | notQueued : l.pc = .enque → out.locked = false → (l.mac_chunk = none ∨ ¬ out.HasRoom) →
      Moves l fl inq out { l with pc := .testRunning } fl inq out
  | allocated : l.pc = .macAlloc → Moves l fl inq out
      { l with pc := .test2Running, calculated_mac := sk.skeinFinal l.ctx } fl inq out
  | notAllocated : l.pc = .macAlloc →
      Moves l fl inq out { l with pc := .fail .MEMORY_ALLOCATION_FAIL } fl inq out
  | running2 : l.pc = .test2Running → fl.running = true →
      Moves l fl inq out { l with pc := .test2Error } fl inq out
  | stopped2 : l.pc = .test2Running → fl.running = false →
      Moves l fl inq out { l with pc := .fail .MAC_CHECK_FAIL } fl inq out
  | noError2 : l.pc = .test2Error → fl.error = none →
      Moves l fl inq out { l with pc := .peek } fl inq out
  | error2 : l.pc = .test2Error → fl.error ≠ none →
      Moves l fl inq out { l with pc := .fail .MAC_CHECK_FAIL } fl inq out
  | peekEmpty : (l.pc = .peek ∨ (l.pc = .fetch2 ∧ inq.locked = false)) → inq.front = none →
      Moves l fl inq out { l with pc := .test2Running } fl inq out
  | peekSome {c : Chunk} : l.pc = .peek → inq.front = some c →
      Moves l fl inq out { l with pc := .fetch2 } fl inq out
  | compared {m : Chunk} : l.pc = .fetch2 → inq.locked = false → inq.front = some m →
      Moves l fl inq out (compare mc l m) fl inq.deque out
  | doneFull : l.pc = .doneIsFull → out.queueIsFull = true → Moves l fl inq out l fl inq out
  | doneRoom : l.pc = .doneIsFull → out.HasRoom →
      Moves l fl inq out { l with pc := .queueDone } fl inq out
  | doneQueued {out' : Queue} : l.pc = .queueDone → out.locked = false →
      out.enque doneChunk = some out' → Moves l fl inq out { l with pc := .returned } fl inq out'
  | doneNotQueued : l.pc = .queueDone → out.locked = false → ¬ out.HasRoom →
      Moves l fl inq out { l with pc := .fail .QUEUE_OPERATION_FAIL } fl inq out.abandon
  | failed {code : Error} : l.pc = .fail code →
      Moves l fl inq out { l with pc := .returned } { fl with error := some code } inq out

variable {tf tf_key mc} {l l' : Local sk} {fl fl' : Flags} {inq inq' out out' : Queue}
  {o : Threefizer.Outcome}

theorem moves_of_step (h : step tf tf_key mc l fl inq out o = some (l', fl', inq', out')) :
    Moves tf tf_key mc l fl inq out l' fl' inq' out' := by
  obtain ⟨pc, hdr, md, mch, ctx, cm, st⟩ := l
  cases pc with
  | testRunning =>
    cases h
    cases hr : fl.running with
    | true => exact .running rfl hr
    | false => exact .stopped rfl hr
  | testError =>
    simp only [step] at h
    split at h
    next he =>
      cases mch with
      | none => cases h; exact .empty rfl he rfl
      | some c => cases h; exact .kept rfl he rfl
    next he => cases h; exact .error rfl he
  | fetch =>
    simp only [step] at h
    split at h
    · cases h
    next hl =>
      have hl' : inq.locked = false := by simpa using hl
      split at h
      next hf => cases h; exact .nothing rfl hl' hf
      next c hf =>
        by_cases hm : c.action = .MAC
        · rw [if_neg (not_not.mpr hm)] at h; cases h; exact .seen rfl hl' hf hm
        · rw [if_pos hm] at h; cases h; exact .taken rfl hl' hf hm
  | headerAlloc =>
    obtain ⟨c, hc, hx⟩ := Option.map_eq_some_iff.mp h
    cases o with
    | failure k => cases hx; exact .headerNotAllocated rfl
    | success =>
      simp only at hx
      split at hx
      next n hn => cases hx; exact .headerGood rfl hc hn
      next hn => cases hx; exact .headerBad rfl hc hn
  | setValid =>
    obtain ⟨c, hc, hx⟩ := Option.map_eq_some_iff.mp h
    cases hx; exact .setValid rfl hc
  | tryFull =>
    cases h
    cases hf : out.queueIsFull with
    | true => exact .tryFull rfl hf
    | false => exact .tryRoom rfl (hasRoom_iff.mpr hf)
  | spin =>
    cases h
    cases hf : out.queueIsFull with
    | true => exact .full rfl hf
    | false => exact .room rfl (hasRoom_iff.mpr hf)
  | enque =>
    simp only [step] at h
    split at h
    · cases h
    next hl =>
      have hl' : out.locked = false := by simpa using hl
      split at h
      next hq =>
        obtain ⟨c, hc, hq'⟩ := Option.bind_eq_some_iff.mp hq
        cases h; exact .queued rfl hl' hc hq'
      next hq =>
        cases h; exact .notQueued rfl hl' (bind_enque_eq_none hq)
  | macAlloc =>
    cases o <;> cases h
    · exact .allocated rfl
    · exact .notAllocated rfl
  | test2Running =>
    cases h
    cases hr : fl.running with
    | true => exact .running2 rfl hr
    | false => exact .stopped2 rfl hr
  | test2Error =>
    cases h
    by_cases he : fl.error = none
    · rw [if_pos he]; exact .noError2 rfl he
    · rw [if_neg he]; exact .error2 rfl he
  | peek =>
    simp only [step] at h
    split at h <;> cases h
    next hf => exact .peekEmpty (Or.inl rfl) hf
    next hf => exact .peekSome rfl hf
  | fetch2 =>
    simp only [step] at h
    split at h
    · cases h
    next hl =>
      have hl' : inq.locked = false := by simpa using hl
      split at h <;> cases h
      next hf => exact .peekEmpty (Or.inr ⟨rfl, hl'⟩) hf
      next hf => exact .compared rfl hl' hf
  | doneIsFull =>
    cases h
    cases hf : out.queueIsFull with
    | true => exact .doneFull rfl hf
    | false => exact .doneRoom rfl (hasRoom_iff.mpr hf)
  | queueDone =>
    simp only [step] at h
    split at h
    · cases h
    next hl =>
      have hl' : out.locked = false := by simpa using hl
      split at h
      next hq => cases h; exact .doneQueued rfl hl' hq
      next hq => cases h; exact .doneNotQueued rfl hl' fun hr => enque_ne_none hr hq
  | fail code => cases h; exact .failed rfl
  | returned => cases h

/-! ### What a step keeps -/

/-- Of the flags the thread changes the error word, which it never clears, the
size in its header check, and `valid` after that. -/
theorem Moves.flags (h : Moves tf tf_key mc l fl inq out l' fl' inq' out') :
    fl' = fl ∨ (∃ code, fl' = { fl with error := some code }) ∨
      (∃ n, l.pc = .headerAlloc ∧ fl' = { fl with new_file_size := n }) ∨
      (l.pc = .setValid ∧ fl' = { fl with valid := true }) := by
  cases h with
  | headerGood hp _ _ => exact Or.inr (Or.inr (Or.inl ⟨_, hp, rfl⟩))
  | setValid hp _ => exact Or.inr (Or.inr (Or.inr ⟨hp, rfl⟩))
  | _ => first | exact Or.inl rfl | exact Or.inr (Or.inl ⟨_, rfl⟩)

theorem Moves.later (h : Moves tf tf_key mc l fl inq out l' fl' inq' out') : fl.Later fl' := by
  rcases h.flags with rfl | ⟨_, rfl⟩ | ⟨_, -, rfl⟩ | ⟨-, rfl⟩
  · exact ⟨id, id⟩
  · exact ⟨id, nofun⟩
  · exact ⟨id, id⟩
  · exact ⟨id, id⟩

theorem Moves.keeps_running (h : Moves tf tf_key mc l fl inq out l' fl' inq' out') :
    fl'.running = fl.running := by
  rcases h.flags with rfl | ⟨_, rfl⟩ | ⟨_, -, rfl⟩ | ⟨-, rfl⟩ <;> rfl

theorem Moves.keeps_valid (h : Moves tf tf_key mc l fl inq out l' fl' inq' out')
    (hv : fl.valid = true) : fl'.valid = true := by
  rcases h.flags with rfl | ⟨_, rfl⟩ | ⟨_, -, rfl⟩ | ⟨-, rfl⟩ <;> first | exact hv | rfl

/-- It only takes chunks out of its input queue. -/
theorem Moves.takes (h : Moves tf tf_key mc l fl inq out l' fl' inq' out') :
    inq' = inq ∨ inq' = inq.deque := by
  cases h <;> first | exact Or.inl rfl | exact Or.inr rfl

/-- An error is set by a thread that is at a `fail`. -/
theorem Moves.keeps_error (h : Moves tf tf_key mc l fl inq out l' fl' inq' out')
    (hl : ∀ code, l.pc ≠ .fail code) : fl'.error = fl.error := by
  cases h with
  | failed hp => exact absurd hp (hl _)
  | _ => rfl

/-- The next thread only makes room. -/
theorem Ready.of_takes (htakes : out' = out ∨ out' = out.deque) (h : Ready l out) : Ready l out' :=
  fun hp => (h hp).of_takes htakes

@[simp] theorem mac_pc (l : Local sk) (c : Chunk) : (mac mc l c).pc = .tryFull := by
  unfold mac; split <;> rfl

variable (mc) in
theorem work_pc (l : Local sk) (c : Chunk) :
    (work mc l c).pc = .macAlloc ∨ (work mc l c).pc = .headerAlloc ∨ (work mc l c).pc = .tryFull := by
  unfold work
  split
  · exact Or.inl rfl
  · split
    · exact Or.inr (Or.inl rfl)
    · exact Or.inr (Or.inr (mac_pc _ _))

variable (mc) in
theorem compare_pc (l : Local sk) (m : Chunk) :
    (compare mc l m).pc = .doneIsFull ∨ (compare mc l m).pc = .fail .MAC_CHECK_FAIL := by
  by_cases h : m.action = .MAC ∧ tagsEqual mc l.calculated_mac m.data = true
  · exact Or.inl (if_pos h)
  · exact Or.inr (if_neg h)

theorem Moves.ready (h : Moves tf tf_key mc l fl inq out l' fl' inq' out') : Ready l' out' := by
  intro hp
  cases h with
  | kept _ _ _ => rename_i c _ _ _; rcases work_pc mc l c with h | h | h <;> simp [h] at hp
  | taken _ _ _ _ => rename_i c _ _ _ _; rcases work_pc mc l c with h | h | h <;> simp [h] at hp
  | seen _ _ _ _ => rename_i c _ _ _ _; rcases work_pc mc l c with h | h | h <;> simp [h] at hp
  | setValid _ _ => simp at hp
  | compared _ _ _ => rename_i m _ _ _; rcases compare_pc mc l m with h | h <;> simp [h] at hp
  | room _ hr => exact hr
  | doneRoom _ hr => exact hr
  | full h1 _ => simp [h1] at hp
  | doneFull h1 _ => simp [h1] at hp
  | _ => simp at hp

/-- What the thread is about to put into its queue. -/
def put (l : Local sk) : Option Chunk :=
  match l.pc with
  | .enque => l.mac_chunk
  | .queueDone => some doneChunk
  | _ => none

theorem pc_of_put (h : put l ≠ none) : l.pc = .enque ∨ l.pc = .queueDone := by
  obtain ⟨pc, hdr, md, mch, ctx, cm, st⟩ := l
  cases pc with
  | enque => exact Or.inl rfl
  | queueDone => exact Or.inr rfl
  | _ => exact absurd rfl h

theorem Moves.produces (h : Moves tf tf_key mc l fl inq out l' fl' inq' out') :
    Produces (put l) (put l') out out' := by
  have hlooks : put l' ≠ none → out'.HasRoom := fun hput => h.ready (pc_of_put hput)
  cases h with
  | queued hp _ hc hq => exact .of_enque (by rw [put, hp]; exact hc) hq hlooks
  | notQueued hp _ hn => exact .of_kept (by rw [put, hp]; exact hn) hlooks
  | peekEmpty hp _ => exact .of_kept (Or.inl (by rcases hp with hp | ⟨hp, -⟩ <;> simp [put, hp])) hlooks
  | doneQueued hp _ hq => exact .of_enque (by rw [put, hp]) hq hlooks
  | doneNotQueued hp _ hn => exact .of_abandon (by rw [put, hp]) hn hlooks
  | _ => exact .of_kept (Or.inl (by simp [put, *])) hlooks

theorem step_of_put {c : Chunk} (hput : put l = some c) (hlock : out.locked = false) :
    ∃ x, step tf tf_key mc l fl inq out .success = some x := by
  obtain ⟨pc, hdr, md, mch, ctx, cm, st⟩ := l
  cases pc with
  | enque => cases hq : mch.bind fun c => out.enque c <;> simp [step, hlock, hq]
  | queueDone => cases hq : out.queueDone <;> simp [step, hlock, hq]
  | _ => cases hput

variable (tf tf_key mc) in
/-- What leads to a `fail`: an allocation that fails, an invalid header, a
cleared flag, an error, or a wrong tag. -/
inductive Fails (l : Local sk) (fl : Flags) (inq : Queue) (o : Threefizer.Outcome) : Prop
  | memory : l.pc = .headerAlloc ∨ l.pc = .macAlloc → o ≠ .success → Fails l fl inq o
  | header {c : Chunk} : l.pc = .headerAlloc → l.mac_chunk = some c →
      headerSize tf tf_key c = none → Fails l fl inq o
  | stopped : l.pc = .test2Running → fl.running = false → Fails l fl inq o
  | error : l.pc = .test2Error → fl.error ≠ none → Fails l fl inq o
  | tag {m : Chunk} : l.pc = .fetch2 → inq.front = some m →
      ¬ (m.action = .MAC ∧ tagsEqual mc l.calculated_mac m.data = true) → Fails l fl inq o

theorem step_fail {code : Error} (h : step tf tf_key mc l fl inq out o = some (l', fl', inq', out'))
    (hr : Ready l out) (hf : l'.pc = .fail code) : Fails tf tf_key mc l fl inq o := by
  have hwork : ∀ (l : Local sk) c, (work mc l c).pc ≠ .fail code := by
    intro l c hp
    rcases work_pc mc l c with h | h | h <;> rw [h] at hp <;> cases hp
  cases moves_of_step h with
  | headerNotAllocated hp =>
    refine .memory (Or.inl hp) ?_
    rintro rfl
    simp only [step, hp] at h
    obtain ⟨c, -, hx⟩ := Option.map_eq_some_iff.mp h
    split at hx <;> cases hx
  | notAllocated hp =>
    refine .memory (Or.inr hp) ?_
    rintro rfl
    simp [step, hp] at h
  | headerBad hp hc hn => exact .header hp hc hn
  | stopped2 hp hr => exact .stopped hp hr
  | error2 hp he => exact .error hp he
  | compared hp _ hm =>
    refine .tag hp hm fun hacc => ?_
    rw [show (compare mc l _).pc = .doneIsFull from if_pos hacc] at hf
    cases hf
  | kept _ _ _ => exact absurd hf (hwork _ _)
  | taken _ _ _ _ => exact absurd hf (hwork _ _)
  | seen _ _ _ _ => exact absurd hf (hwork _ _)
  | setValid _ _ => rw [mac_pc] at hf; cases hf
  | doneNotQueued hp _ hn => exact absurd (hr (Or.inr hp)) hn
  | full hp _ => rw [hp] at hf; cases hf
  | doneFull hp _ => rw [hp] at hf; cases hf
  | _ => cases hf

section Rest

variable {hd m : Chunk} {final : sk.Ctx} {x outs : List Chunk}

theorem isLast_passed (hact : mc.out_action ≠ .MAC ∧ mc.out_action ≠ .DONE) (c : Chunk) :
    isLast (passed mc c) = false := by
  simp [isLast, passed, hact.1, hact.2]

/-- The MAC of the next chunk of the data. -/
theorem holds_mac {c : Chunk} {ds ins : List Chunk}
    (hact : mc.out_action ≠ .MAC ∧ mc.out_action ≠ .DONE)
    (hmaced : l.maced = false) (hleft : Left m ds ins) (hfeed : feed l.ctx (c :: ds) = final) :
    Rest mc hd m final (mac mc { l with header := false } c) ins
      (passed mc c :: ds.map (passed mc) ++ [doneChunk]) := by
  obtain ⟨pc, hdr, md, mch, ctx, cm, st⟩ := l
  cases hmaced
  exact ⟨rfl, rfl, _, ds, rfl, isLast_passed hact c, hleft, hfeed, rfl⟩

/-- While nothing disturbs it, the thread moves what it has still to put out
into its queue, and it leaves its first loop before the tag with all of the
data MACed. -/
theorem Moves.rest (h : Moves tf tf_key mc l fl inq out l' fl' inq' out') (hrun : fl.running = true)
    (herr : fl.error = none) (herr' : fl'.error = none) (hroom : Ready l out)
    (hact : mc.out_action ≠ .MAC ∧ mc.out_action ≠ .DONE) (hm : m.action = .MAC)
    (hR : Rest mc hd m final l (inq.elements ++ x) outs) :
    ∃ outs', Rest mc hd m final l' (inq'.elements ++ x) outs' ∧
      out'.elements ++ outs' = out.elements ++ outs := by
  obtain ⟨pc, hdr, md, mch, ctx, cm, st⟩ := l
  cases h with
  | running hp _ => cases hp; exact ⟨outs, hR, rfl⟩
  | stopped _ h => exact absurd (hrun.symm.trans h) (by decide)
  | empty hp _ hn =>
    cases hp; cases hn
    rcases hR with hR | ⟨-, -, c, -, hc, -⟩
    · exact ⟨outs, hR, rfl⟩
    · cases hc
  | kept hp _ hc =>
    cases hp; cases hc
    obtain ⟨hc, -⟩ | ⟨hmd, hh, c', ds, hc, hl, hleft, hfeed, rfl⟩ := hR
    · cases hc
    cases hc; cases hmd; cases hh
    simp only [work, hl, mac, Bool.false_eq_true, if_false, if_true]
    exact ⟨_, ⟨rfl, rfl, _, ds, rfl, hl, hleft, hfeed, rfl⟩, rfl⟩
  | error _ h => exact absurd herr h
  | nothing hp _ _ => cases hp; exact ⟨outs, Or.inl hR, rfl⟩
  | @taken c hp _ hf hne =>
    cases hp
    obtain ⟨hn, hmd, ds, ⟨hds, hins⟩, hfeed, rfl, hhead⟩ := hR
    cases hn; cases hmd
    rw [front_eq_some hf, List.cons_append] at hins
    cases ds with
    | nil =>
      rw [List.nil_append, List.cons.injEq] at hins
      exact absurd (hins.1 ▸ hm) hne
    | cons d ds =>
      rw [List.cons_append, List.cons.injEq] at hins
      obtain ⟨rfl, hins⟩ := hins
      have hleft : Left m ds (inq.deque.elements ++ x) :=
        ⟨fun d hd => hds d (List.mem_cons_of_mem _ hd), hins⟩
      have hl : isLast c = false := hds c List.mem_cons_self
      cases hdr with
      | false =>
        simp only [work, hl, Bool.false_eq_true, if_false]
        exact ⟨_, holds_mac hact rfl hleft hfeed, rfl⟩
      | true =>
        have hc : c = hd := Option.some.inj (hhead rfl)
        subst hc
        simp only [work, hl, Bool.false_eq_true, if_false, if_true]
        exact ⟨_, ⟨rfl, rfl, rfl, ds, hleft, hfeed, rfl⟩, rfl⟩
  | @seen c hp _ hf hmac =>
    cases hp
    obtain ⟨hn, hmd, ds, ⟨hds, hins⟩, hfeed, rfl, hhead⟩ := hR
    have hl : isLast c = true := by simp [isLast, hmac]
    simp only [work, hl, if_true]
    rw [front_eq_some hf, List.cons_append] at hins
    cases ds with
    | nil =>
      have hdr' : hdr = false := by
        by_contra hne
        exact absurd (hhead (by simpa using hne)) nofun
      exact ⟨_, ⟨hdr', rfl⟩, rfl⟩
    | cons d ds =>
      rw [List.cons_append, List.cons.injEq] at hins
      have := hds d List.mem_cons_self
      rw [← hins.1, hl] at this
      cases this
  | headerNotAllocated _ => exact ⟨outs, trivial, rfl⟩
  | headerGood hp _ _ => cases hp; exact ⟨outs, hR, rfl⟩
  | headerBad _ _ _ => exact ⟨outs, trivial, rfl⟩
  | setValid hp hc =>
    cases hp
    obtain ⟨-, hmd, hc', ds, hleft, hfeed, rfl⟩ := hR
    cases hc.symm.trans hc'
    exact ⟨_, holds_mac hact hmd hleft hfeed, rfl⟩
  | tryFull hp _ => cases hp; exact ⟨outs, Or.inr hR, rfl⟩
  | tryRoom hp _ => cases hp; exact ⟨outs, hR, rfl⟩
  | full hp _ => cases hp; exact ⟨outs, hR, rfl⟩
  | room hp _ => cases hp; exact ⟨outs, hR, rfl⟩
  | queued hp _ hc hq =>
    cases hp; cases hc
    obtain ⟨-, hh, c, ds, hc, -, hleft, hfeed, rfl⟩ := hR
    cases hc; cases hh
    exact ⟨_, Or.inl ⟨rfl, rfl, ds, hleft, hfeed, rfl, nofun⟩, by rw [(enque_eq_some hq).1]; simp⟩
  | notQueued hp _ h =>
    cases hp
    obtain ⟨-, hh, c, ds, hc, -, hleft, hfeed, rfl⟩ := hR
    rcases h with h | h
    · exact absurd (hc.symm.trans h) nofun
    · exact absurd (hroom (Or.inl rfl)) h
  | allocated hp => cases hp; exact ⟨outs, hR, rfl⟩
  | notAllocated _ => exact ⟨outs, trivial, rfl⟩
  | running2 hp _ => cases hp; exact ⟨outs, hR, rfl⟩
  | stopped2 _ _ => exact ⟨outs, trivial, rfl⟩
  | noError2 hp _ => cases hp; exact ⟨outs, hR, rfl⟩
  | error2 _ _ => exact ⟨outs, trivial, rfl⟩
  | peekEmpty hp _ => rcases hp with hp | ⟨hp, -⟩ <;> cases hp <;> exact ⟨outs, hR, rfl⟩
  | peekSome hp _ => cases hp; exact ⟨outs, hR, rfl⟩
  | @compared m' hp _ _ =>
    cases hp
    rcases compare_pc mc ⟨.fetch2, hdr, md, mch, ctx, cm, st⟩ m' with h | h
    · exact ⟨outs, by unfold Rest; rw [h]; exact hR, rfl⟩
    · exact ⟨outs, by unfold Rest; rw [h]; trivial, rfl⟩
  | doneFull hp _ => cases hp; exact ⟨outs, hR, rfl⟩
  | doneRoom hp _ => cases hp; exact ⟨outs, hR, rfl⟩
  | doneQueued hp _ hq =>
    cases hp
    exact ⟨[], rfl, by rw [(enque_eq_some hq).1, hR.2]; simp⟩
  | doneNotQueued hp _ h => cases hp; exact absurd (hroom (Or.inr rfl)) h
  | failed _ => cases herr'

/-- An undisturbed thread that leaves its first loop has seen the tag and has
MACed all of the data. -/
theorem sees_of_rest {c : Chunk} (hm : m.action = .MAC) (hf : inq.front = some c)
    (hR : Waits mc hd m final l (inq.elements ++ x) outs) (hl : isLast c = true) :
    inq.front = some m ∧ l.ctx = final ∧ c.action = .MAC := by
  obtain ⟨-, -, ds, ⟨hds, hins⟩, hfeed, -, -⟩ := hR
  rw [front_eq_some hf, List.cons_append] at hins
  cases ds with
  | nil =>
    rw [List.nil_append, List.cons.injEq] at hins
    rw [hf, hins.1]
    exact ⟨rfl, hfeed, hm⟩
  | cons d ds =>
    rw [List.cons_append, List.cons.injEq] at hins
    have := hds d List.mem_cons_self
    rw [← hins.1, hl] at this
    cases this

theorem sees_work {c : Chunk} (hl : isLast c = false) : Sees m final (work mc l c) fl inq := by
  unfold Sees
  rcases work_pc mc l c with h | h | h
  · simp only [work, hl, Bool.false_eq_true, if_false] at h
    split at h
    · cases h
    · simp at h
  · rw [h]; trivial
  · rw [h]; trivial

theorem Moves.sees (h : Moves tf tf_key mc l fl inq out l' fl' inq' out') (hm : m.action = .MAC)
    (hR : fl.running = true → fl.error = none → ∃ x outs, Rest mc hd m final l (inq.elements ++ x) outs)
    (hs : Sees m final l fl inq) : Sees m final l' fl' inq' := by
  obtain ⟨pc, hdr, md, mch, ctx, cm, st⟩ := l
  cases h with
  | stopped hp hr => exact fun h => absurd (hr.symm.trans h) (by decide)
  | @kept c hp _ hc =>
    cases hp; cases hc
    by_cases hl : isLast c = true
    · simp only [work, hl, if_true]
      intro hrun herr
      obtain ⟨x, outs, ⟨hn, -⟩ | ⟨-, -, c', ds, hc, hl', -⟩⟩ := hR hrun herr
      · cases hn
      · cases hc; exact absurd (hl.symm.trans hl') (by decide)
    · exact sees_work (by simpa using hl)
  | error hp he => exact fun _ h => absurd h he
  | @taken c hp _ hf hne =>
    cases hp
    by_cases hl : isLast c = true
    · simp only [work, hl, if_true]
      intro hrun herr
      obtain ⟨x, outs, hw⟩ := hR hrun herr
      exact absurd (sees_of_rest hm hf hw hl).2.2 hne
    · exact sees_work (by simpa using hl)
  | @seen c hp _ hf hmac =>
    cases hp
    have hl : isLast c = true := by simp [isLast, hmac]
    simp only [work, hl, if_true]
    intro hrun herr
    obtain ⟨x, outs, hw⟩ := hR hrun herr
    have := sees_of_rest hm hf hw hl
    exact ⟨this.1, this.2.1⟩
  | setValid _ _ => unfold Sees; rw [mac_pc]; trivial
  | allocated hp =>
    cases hp
    exact fun hrun herr => ⟨(hs hrun herr).1, congrArg _ (hs hrun herr).2⟩
  | running2 hp hr => cases hp; exact hs hr
  | noError2 hp he => cases hp; exact hs he
  | peekEmpty hp hf =>
    rcases hp with hp | ⟨hp, -⟩ <;> cases hp <;> exact absurd (hs.1.symm.trans hf) nofun
  | peekSome hp _ => cases hp; exact hs
  | @compared m' hp _ _ =>
    unfold Sees
    rcases compare_pc mc ⟨pc, hdr, md, mch, ctx, cm, st⟩ m' with h | h <;> rw [h] <;> trivial
  | full hp _ => cases hp; trivial
  | doneFull hp _ => cases hp; trivial
  | _ => trivial

theorem Sees.mono (h : Sees m final l fl inq) (hrun : fl'.running = true → fl.running = true)
    (herr : fl'.error = none → fl.error = none)
    (hfront : ∀ c, inq.front = some c → inq'.front = some c) : Sees m final l fl' inq' := by
  obtain ⟨pc, hdr, md, mch, ctx, cm, st⟩ := l
  cases pc with
  | macAlloc | test2Running =>
    exact fun hr he => ⟨hfront _ (h (hrun hr) (herr he)).1, (h (hrun hr) (herr he)).2⟩
  | test2Error => exact fun he => ⟨hfront _ (h (herr he)).1, (h (herr he)).2⟩
  | peek | fetch2 => exact ⟨hfront _ h.1, h.2⟩
  | _ => trivial

/-- A step before the comparison stores no tag. -/
theorem work_stored (l : Local sk) (c : Chunk) :
    (work mc l c).stored_mac_chunk = l.stored_mac_chunk := by
  unfold work mac
  split
  · rfl
  · split
    · rfl
    · split <;> rfl

theorem Verdict.stored {m' : Chunk} (h : Verdict m final l) (hm : l.stored_mac_chunk = some m') :
    m' = m ∧ l.calculated_mac = sk.skeinFinal final := by
  unfold Verdict at h
  split at h <;> first | exact h m' hm | exact absurd (h.symm.trans hm) nofun

theorem verdict_of_none (h : l.stored_mac_chunk = none) : Verdict m final l := by
  unfold Verdict
  split <;> first | exact h | exact fun m' h' => absurd (h.symm.trans h') nofun

theorem Moves.verdict (h : Moves tf tf_key mc l fl inq out l' fl' inq' out')
    (hs : Sees m final l fl inq) (hv : Verdict m final l) : Verdict m final l' := by
  obtain ⟨pc, hdr, md, mch, ctx, cm, st⟩ := l
  cases h with
  | kept hp _ _ => cases hp; exact verdict_of_none ((work_stored _ _).trans hv)
  | taken hp _ _ _ => cases hp; exact verdict_of_none ((work_stored _ _).trans hv)
  | seen hp _ _ _ => cases hp; exact verdict_of_none ((work_stored _ _).trans hv)
  | setValid hp _ =>
    cases hp
    refine verdict_of_none (Eq.trans ?_ hv)
    unfold mac; split <;> rfl
  | @compared m' hp _ hf =>
    cases hp
    have hst : (compare mc ⟨.fetch2, hdr, md, mch, ctx, cm, st⟩ m').stored_mac_chunk = some m' := rfl
    have hm' : m' = m := Option.some.inj (hf.symm.trans hs.1)
    unfold Verdict
    rcases compare_pc mc ⟨.fetch2, hdr, md, mch, ctx, cm, st⟩ m' with h | h <;> rw [h] <;>
      exact fun m'' h'' => ⟨(Option.some.inj (h''.symm.trans hst)).trans hm', hs.2⟩
  | full hp _ => cases hp; exact hv
  | doneFull hp _ => cases hp; exact hv
  | doneRoom hp _ => cases hp; exact hv
  | doneQueued hp _ _ => cases hp; exact hv
  | doneNotQueued hp _ _ => cases hp; exact hv
  | failed hp => cases hp; exact hv
  | peekEmpty hp _ => rcases hp with hp | ⟨hp, -⟩ <;> cases hp <;> exact hv
  | _ hp => cases hp; exact verdict_of_none hv

theorem Moves.judged (h : Moves tf tf_key mc l fl inq out l' fl' inq' out') (hj : Judged mc l fl) :
    Judged mc l' fl' := by
  obtain ⟨pc, hdr, md, mch, ctx, cm, st⟩ := l
  cases h with
  | kept _ _ _ =>
    rename_i c _ _ _
    unfold Judged
    rcases work_pc mc ⟨pc, hdr, md, mch, ctx, cm, st⟩ c with h | h | h <;> rw [h] <;> trivial
  | taken _ _ _ _ =>
    rename_i c _ _ _ _
    unfold Judged
    rcases work_pc mc ⟨pc, hdr, md, mch, ctx, cm, st⟩ c with h | h | h <;> rw [h] <;> trivial
  | seen _ _ _ _ =>
    rename_i c _ _ _ _
    unfold Judged
    rcases work_pc mc ⟨pc, hdr, md, mch, ctx, cm, st⟩ c with h | h | h <;> rw [h] <;> trivial
  | setValid _ _ => unfold Judged; rw [mac_pc]; trivial
  | @compared m' _ _ _ =>
    unfold Judged
    by_cases hc : m'.action = .MAC ∧ tagsEqual mc cm m'.data = true
    · have hp : (compare mc ⟨pc, hdr, md, mch, ctx, cm, st⟩ m').pc = .doneIsFull := if_pos hc
      rw [hp]
      exact ⟨m', rfl, hc.1, hc.2⟩
    · have hp : (compare mc ⟨pc, hdr, md, mch, ctx, cm, st⟩ m').pc = .fail .MAC_CHECK_FAIL :=
        if_neg hc
      rw [hp]; trivial
  | full hp _ => cases hp; trivial
  | doneFull hp _ => cases hp; exact hj
  | doneRoom hp _ => cases hp; exact hj
  | doneQueued hp _ _ => cases hp; exact Or.inr hj
  | failed hp => exact Or.inl (Option.some_ne_none _)
  | _ => trivial

theorem Judged.mono (h : Judged mc l fl) (herr : fl'.error = none → fl.error = none) :
    Judged mc l fl' := by
  obtain ⟨pc, hdr, md, mch, ctx, cm, st⟩ := l
  cases pc with
  | doneIsFull | queueDone => exact h
  | returned => exact h.imp (fun he h' => he (herr h')) id
  | _ => trivial

end Rest

/-! ### The header -/

/-- The header is checked before anything else is done with it. -/
def Checking (l : Local sk) : Prop := l.pc = .headerAlloc ∨ l.pc = .setValid → l.header = true

variable (tf tf_key) in
/-- Once the check has passed, the size in the flags is that of the header `hd`. -/
def SizeRead (hd : Chunk) (l : Local sk) (fl : Flags) : Prop :=
  l.header = false ∨ l.pc = .setValid → headerSize tf tf_key hd = some fl.new_file_size

theorem work_header (l : Local sk) (c : Chunk) : (work mc l c).header = l.header := by
  unfold work mac
  split
  · rfl
  · split
    · rfl
    · split <;> rfl

theorem checking_work (l : Local sk) (c : Chunk) : Checking (work mc l c) := by
  unfold Checking
  rw [work_header]
  intro hp
  unfold work at hp
  split at hp
  · simp at hp
  · split at hp
    next hh => exact hh
    · simp at hp

theorem Moves.checking (h : Moves tf tf_key mc l fl inq out l' fl' inq' out') (hc : Checking l) :
    Checking l' := by
  cases h with
  | kept _ _ _ => exact checking_work _ _
  | taken _ _ _ _ => exact checking_work _ _
  | seen _ _ _ _ => exact checking_work _ _
  | headerGood hp _ _ => exact fun _ => hc (Or.inl hp)
  | setValid _ _ => intro hp; simp at hp
  | @compared m' _ _ _ =>
    intro hp
    rcases compare_pc mc l m' with h | h <;> simp [h] at hp
  | full hp _ => exact hc
  | doneFull hp _ => exact hc
  | _ => intro hp; simp at hp

theorem sizeRead_work {hd : Chunk} (c : Chunk) (hs : SizeRead tf tf_key hd l fl) :
    SizeRead tf tf_key hd (work mc l c) fl := by
  rintro (h | h)
  · exact hs (Or.inl ((work_header l c).symm.trans h))
  · rcases work_pc mc l c with h' | h' | h' <;> simp [h'] at h

theorem Moves.sizeRead {hd : Chunk} (h : Moves tf tf_key mc l fl inq out l' fl' inq' out')
    (hhd : l.pc = .headerAlloc → l.mac_chunk = some hd) (hs : SizeRead tf tf_key hd l fl) :
    SizeRead tf tf_key hd l' fl' := by
  cases h with
  | kept _ _ _ => exact sizeRead_work _ hs
  | taken _ _ _ _ => exact sizeRead_work _ hs
  | seen _ _ _ _ => exact sizeRead_work _ hs
  | headerGood hp hc hn => cases hc.symm.trans (hhd hp); exact fun _ => hn
  | setValid hp _ => exact fun _ => hs (Or.inr hp)
  | @compared m' _ _ _ =>
    rintro (h | h)
    · exact hs (Or.inl h)
    · rcases compare_pc mc l m' with h' | h' <;> simp [h'] at h
  | full hp _ => exact hs
  | doneFull hp _ => exact hs
  | _ => exact fun h => hs (Or.inl (h.resolve_right (by simp)))

/-- The header is not checked twice. -/
theorem Moves.header (h : Moves tf tf_key mc l fl inq out l' fl' inq' out') (hh : l'.header = true) :
    l.header = true := by
  cases h with
  | kept _ _ _ => rwa [work_header] at hh
  | taken _ _ _ _ => rwa [work_header] at hh
  | seen _ _ _ _ => rwa [work_header] at hh
  | setValid _ _ =>
    unfold mac at hh
    split at hh <;> cases hh
  | _ => exact hh

/-- Nothing is put out before the header is checked. -/
theorem Moves.quiet {hd m : Chunk} {final : sk.Ctx} {ins outs : List Chunk}
    (h : Moves tf tf_key mc l fl inq out l' fl' inq' out') (hR : Rest mc hd m final l ins outs)
    (herr' : fl'.error = none) (hh : l'.header = true) : out' = out := by
  obtain ⟨pc, hdr, md, mch, ctx, cm, st⟩ := l
  cases h with
  | queued hp _ _ _ => cases hp; exact absurd (hR.2.1.symm.trans hh) (by decide)
  | doneQueued hp _ _ => cases hp; exact absurd (hR.1.symm.trans hh) (by decide)
  | doneNotQueued hp _ _ => cases hp; exact absurd (hR.1.symm.trans hh) (by decide)
  | _ => rfl

/-- `valid` is set when the header is done. -/
theorem Moves.valid (h : Moves tf tf_key mc l fl inq out l' fl' inq' out')
    (hv : fl.valid = !l.header) : fl'.valid = !l'.header := by
  cases h with
  | kept _ _ _ => rw [work_header]; exact hv
  | taken _ _ _ _ => rw [work_header]; exact hv
  | seen _ _ _ _ => rw [work_header]; exact hv
  | setValid _ _ => unfold mac; split <;> rfl
  | _ => exact hv

/-! ### The end of the data -/

/-- A chunk in hand is not `DONE`, up to the end of the first loop. -/
def Passing (l : Local sk) : Prop :=
  match l.pc with
  | .testRunning | .testError | .fetch | .headerAlloc | .setValid | .tryFull | .spin | .enque =>
    ∀ c, l.mac_chunk = some c → c.action ≠ .DONE
  | _ => True

theorem passing_mac (hact : mc.out_action ≠ .DONE) {c : Chunk} (hc : c.action ≠ .DONE) :
    Passing (mac mc l c) := by
  unfold mac
  split
  · exact fun d hd => Option.some.inj hd ▸ hc
  · exact fun d hd => Option.some.inj hd ▸ hact

theorem passing_work (hact : mc.out_action ≠ .DONE) (c : Chunk) : Passing (work mc l c) := by
  unfold work
  split
  · trivial
  next hl =>
    have hc : c.action ≠ .DONE := fun h => hl (by simp [isLast, h])
    split
    · exact fun d hd => Option.some.inj hd ▸ hc
    · exact passing_mac hact hc

theorem Moves.passing (h : Moves tf tf_key mc l fl inq out l' fl' inq' out') (hact : mc.out_action ≠ .DONE)
    (hp : Passing l) : Passing l' := by
  obtain ⟨pc, hdr, md, mch, ctx, cm, st⟩ := l
  cases h with
  | kept _ _ _ => exact passing_work hact _
  | taken _ _ _ _ => exact passing_work hact _
  | seen _ _ _ _ => exact passing_work hact _
  | setValid hpc hc => cases hpc; exact passing_mac hact (hp _ hc)
  | running hpc _ => cases hpc; exact hp
  | empty hpc _ _ => cases hpc; exact hp
  | nothing hpc _ _ => cases hpc; exact hp
  | headerGood hpc _ _ => cases hpc; exact hp
  | tryFull hpc _ => cases hpc; exact hp
  | tryRoom hpc _ => cases hpc; exact hp
  | full hpc _ => exact hp
  | room hpc _ => cases hpc; exact hp
  | queued _ _ _ _ => exact nofun
  | notQueued hpc _ _ => cases hpc; exact hp
  | doneFull _ _ => exact hp
  | compared _ _ _ =>
    rename_i m _ _ _
    unfold Passing
    rcases compare_pc mc ⟨pc, hdr, md, mch, ctx, cm, st⟩ m with h | h <;> rw [h] <;> trivial
  | _ => trivial

/-- `DONE` is put in only when the tag is accepted. -/
theorem Moves.puts_done (h : Moves tf tf_key mc l fl inq out l' fl' inq' out') (hp : Passing l)
    (hj : Judged mc l fl) (hd : out'.HasDone) : out.HasDone ∨ Accepted mc l := by
  obtain ⟨pc, hdr, md, mch, ctx, cm, st⟩ := l
  cases h with
  | queued hpc _ hc hq =>
    cases hpc
    rcases hasDone_enque hq hd with h | h
    · exact Or.inl h
    · exact absurd h (hp _ hc)
  | doneQueued hpc _ hq => cases hpc; exact Or.inr hj
  | _ => exact Or.inl hd

/-- What is accepted stays accepted. -/
theorem Moves.accepted {m : Chunk} {final : sk.Ctx}
    (h : Moves tf tf_key mc l fl inq out l' fl' inq' out') (hv : Verdict m final l)
    (ha : Accepted mc l) : Accepted mc l' := by
  obtain ⟨pc, hdr, md, mch, ctx, cm, st⟩ := l
  have hsome : st ≠ none := by
    obtain ⟨m, hm, -⟩ := ha
    exact fun h => absurd (hm.symm.trans h) nofun
  cases h with
  | full hpc _ => exact ha
  | doneFull _ _ => exact ha
  | doneRoom _ _ => exact ha
  | doneQueued _ _ _ => exact ha
  | doneNotQueued _ _ _ => exact ha
  | failed _ => exact ha
  | peekEmpty hpc _ => rcases hpc with hpc | ⟨hpc, -⟩ <;> cases hpc <;> exact absurd hv hsome
  | _ hpc => cases hpc; exact absurd hv hsome

/-- The thread has returned or is about to, with the tag accepted. -/
def Settled (l : Local sk) : Prop := l.pc = .doneIsFull ∨ l.pc = .queueDone ∨ l.pc = .returned

/-- After the tag is accepted the thread does not fail any more. -/
theorem Moves.settled {m : Chunk} {final : sk.Ctx}
    (h : Moves tf tf_key mc l fl inq out l' fl' inq' out') (hroom : Ready l out) (hv : Verdict m final l)
    (hS : Accepted mc l → Settled l) (ha : Accepted mc l') : Settled l' := by
  obtain ⟨pc, hdr, md, mch, ctx, cm, st⟩ := l
  obtain ⟨m', hm', hacc⟩ := ha
  cases h with
  | compared _ _ _ =>
    cases hm'
    exact Or.inl (if_pos hacc)
  | kept hpc _ _ => cases hpc; exact absurd (hm'.symm.trans ((work_stored _ _).trans hv)) nofun
  | taken hpc _ _ _ => cases hpc; exact absurd (hm'.symm.trans ((work_stored _ _).trans hv)) nofun
  | seen hpc _ _ _ => cases hpc; exact absurd (hm'.symm.trans ((work_stored _ _).trans hv)) nofun
  | setValid hpc _ =>
    cases hpc
    have : st = none := hv
    unfold mac at hm'
    split at hm' <;> exact absurd (hm'.symm.trans this) nofun
  | full hpc _ => cases hpc; exact absurd (hm'.symm.trans hv) nofun
  | doneFull hpc _ => exact Or.inl hpc
  | doneRoom _ _ => exact Or.inr (Or.inl rfl)
  | doneQueued _ _ _ => exact Or.inr (Or.inr rfl)
  | doneNotQueued hpc _ hn => exact absurd (hroom (Or.inr hpc)) hn
  | failed hpc =>
    cases hpc
    rcases hS ⟨m', hm', hacc⟩ with h | h | h <;> cases h
  | peekEmpty hpc _ => rcases hpc with hpc | ⟨hpc, -⟩ <;> cases hpc <;> exact absurd (hm'.symm.trans hv) nofun
  | _ hpc => cases hpc; exact absurd (hm'.symm.trans hv) nofun

theorem Settled.not_fail (h : Settled l) (code : Error) : l.pc ≠ .fail code := by
  rcases h with h | h | h <;> rw [h] <;> nofun

theorem Moves.not_returned (h : Moves tf tf_key mc l fl inq out l' fl' inq' out') : l.pc ≠ .returned := by
  cases h with
  | peekEmpty hp _ => rcases hp with hp | ⟨hp, -⟩ <;> simp [hp]
  | _ => simp_all

/-- The thread leaves the mutex of its queue free. -/
theorem Moves.opens (h : Moves tf tf_key mc l fl inq out l' fl' inq' out') (hroom : Ready l out) {n : ℕ}
    (ho : out.Open n) : out'.Open n :=
  h.produces.opens (fun hput => hroom (pc_of_put hput)) ho

/-- `DONE` is the last thing the thread puts out. -/
theorem Moves.done_last (h : Moves tf tf_key mc l fl inq out l' fl' inq' out') (hp : Passing l)
    (hd : out'.HasDone) : out.HasDone ∨ l'.pc = .returned := by
  obtain ⟨pc, hdr, md, mch, ctx, cm, st⟩ := l
  cases h with
  | queued hpc _ hc hq => cases hpc; exact (hasDone_enque hq hd).imp id fun h => absurd h (hp _ hc)
  | doneQueued _ _ _ => exact Or.inr rfl
  | _ => exact Or.inl hd

/-- A thread that is given nothing does not get past the header. -/
theorem Moves.no_chunk (h : Moves tf tf_key mc l fl inq out l' fl' inq' out') (hempty : inq.elements = [])
    (hc : l.mac_chunk = none) (hh : l.header = true) :
    inq'.elements = [] ∧ l'.mac_chunk = none ∧ l'.header = true := by
  cases h with
  | kept _ _ hc' => exact absurd (hc.symm.trans hc') nofun
  | taken _ _ hf _ => rw [front_eq_some hf] at hempty; cases hempty
  | seen _ _ hf _ => rw [front_eq_some hf] at hempty; cases hempty
  | setValid _ hc' => exact absurd (hc.symm.trans hc') nofun
  | queued _ _ hc' _ => exact absurd (hc.symm.trans hc') nofun
  | compared _ _ hf => rw [front_eq_some hf] at hempty; cases hempty
  | _ => exact ⟨hempty, hc, hh⟩

/-! ### What the thread may still put out -/

/-- The number of chunks in hand that can still be queued. -/
def load (l : Local sk) : ℕ :=
  match l.pc with
  | .testRunning | .testError | .fetch | .headerAlloc | .setValid | .tryFull | .spin | .enque =>
    l.mac_chunk.toList.length
  | _ => 0

theorem load_le (l : Local sk) : load l ≤ 1 := by
  unfold load
  split <;> first | omega | (cases l.mac_chunk <;> simp)

variable (mc) in
theorem load_work (l : Local sk) {c : Chunk} (hf : inq.front = some c) : load (work mc l c) + inq.deque.data ≤ inq.data := by
  have hle := load_le (work mc l c)
  by_cases hl : isLast c = true
  · have hp : (work mc l c).pc = .macAlloc := by simp [work, hl]
    have := data_deque_le inq
    simp only [load, hp]
    omega
  · have := data_front hf fun hd => hl (by simp [isLast, hd])
    omega

/-- The thread makes no more chunks out of those it is given. -/
theorem Moves.load (h : Moves tf tf_key mc l fl inq out l' fl' inq' out') :
    out'.data + AuthThread.load l' + inq'.data ≤ out.data + AuthThread.load l + inq.data := by
  obtain ⟨pc, hdr, md, mch, ctx, cm, st⟩ := l
  cases h with
  | @kept c hpc _ hc =>
    cases hpc; cases hc
    exact Nat.add_le_add_right (Nat.add_le_add_left (load_le _) _) _
  | @taken c hpc _ hf _ =>
    have := load_work mc ⟨pc, hdr, md, mch, ctx, cm, st⟩ hf
    omega
  | @seen c hpc _ hf hm =>
    have hp : (work mc ⟨pc, hdr, md, mch, ctx, cm, st⟩ c).pc = .macAlloc := by simp [work, isLast, hm]
    simp only [AuthThread.load, hp]
    omega
  | @setValid c hpc hc =>
    cases hpc; cases hc
    exact Nat.add_le_add_right (Nat.add_le_add_left (load_le _) _) _
  | full _ _ => exact le_rfl
  | queued hpc _ hc hq =>
    have := data_enque_le hq
    cases hpc; cases hc
    simp [AuthThread.load]
    omega
  | @compared m' _ _ _ =>
    have := data_deque_le inq
    have h0 : AuthThread.load (compare mc ⟨pc, hdr, md, mch, ctx, cm, st⟩ m') = 0 := by
      unfold AuthThread.load
      rcases compare_pc mc ⟨pc, hdr, md, mch, ctx, cm, st⟩ m' with h | h <;> rw [h]
    omega
  | doneFull _ _ => exact le_rfl
  | doneQueued hpc _ hq => cases hpc; rw [data_enque_done hq]; exact le_rfl
  | doneNotQueued hpc _ _ => cases hpc; exact le_rfl
  | peekEmpty hpc _ => rcases hpc with hpc | ⟨hpc, -⟩ <;> cases hpc <;> exact le_rfl
  | _ hpc => cases hpc; simp only [AuthThread.load]; omega

/-- A chunk keeps its size. -/
theorem work_size {c d : Chunk} (h : (work mc l c).mac_chunk = some d) : d.data_size = c.data_size := by
  unfold work mac at h
  split at h
  · exact Option.some.inj h ▸ rfl
  · split at h
    · exact Option.some.inj h ▸ rfl
    · split at h <;> exact Option.some.inj h ▸ rfl

/-- What holds of the sizes of the chunks that come in holds of those that go out. -/
theorem Moves.sizes {p : ℕ → Prop} (h : Moves tf tf_key mc l fl inq out l' fl' inq' out') (h0 : p 0)
    (hin : ∀ c ∈ inq.elements, p c.data_size) (hl : ∀ c, l.mac_chunk = some c → p c.data_size)
    (hout : ∀ c ∈ out.elements, p c.data_size) :
    (∀ c, l'.mac_chunk = some c → p c.data_size) ∧ ∀ c ∈ out'.elements, p c.data_size := by
  have hfront : ∀ c, inq.front = some c → p c.data_size := fun c hf =>
    hin c (by rw [front_eq_some hf]; exact List.mem_cons_self)
  have hput : ∀ {c q}, enque c out = some q → p c.data_size → ∀ d ∈ q.elements, p d.data_size := by
    intro c q hq hc d hd
    rw [(enque_eq_some hq).1] at hd
    rcases List.mem_append.mp hd with hd | hd
    · exact hout d hd
    · exact List.mem_singleton.mp hd ▸ hc
  cases h with
  | kept _ _ hc => exact ⟨fun d hd => work_size hd ▸ hl _ hc, hout⟩
  | taken _ _ hf _ => exact ⟨fun d hd => work_size hd ▸ hfront _ hf, hout⟩
  | seen _ _ hf _ => exact ⟨fun d hd => work_size hd ▸ hfront _ hf, hout⟩
  | setValid _ hc =>
    refine ⟨fun d hd => ?_, hout⟩
    have hsize := hl _ hc
    unfold mac at hd
    split at hd <;> cases hd <;> exact hsize
  | queued _ _ hc hq => exact ⟨nofun, hput hq (hl _ hc)⟩
  | doneQueued _ _ hq => exact ⟨hl, hput hq h0⟩
  | _ => exact ⟨hl, hout⟩

/-! ### The way to the end -/

/-- A header that is checked is in hand. -/
def Holding (l : Local sk) : Prop := l.pc = .headerAlloc ∨ l.pc = .setValid → l.mac_chunk ≠ none

theorem holding_work (c : Chunk) : Holding (work mc l c) := by
  intro _
  unfold work mac
  split
  · exact Option.some_ne_none _
  · split
    · exact Option.some_ne_none _
    · split <;> exact Option.some_ne_none _

theorem Moves.holding (h : Moves tf tf_key mc l fl inq out l' fl' inq' out') : Holding l' := by
  cases h with
  | kept _ _ _ => exact holding_work _
  | taken _ _ _ _ => exact holding_work _
  | seen _ _ _ _ => exact holding_work _
  | headerGood _ hc _ => exact fun _ h => absurd (hc.symm.trans h) nofun
  | setValid _ _ => intro hp; simp at hp
  | @compared m' _ _ _ =>
    intro hp
    rcases compare_pc mc l m' with h | h <;> simp [h] at hp
  | full hpc _ => intro hp; simp [hpc] at hp
  | doneFull hpc _ => intro hp; simp [hpc] at hp
  | _ => intro hp; simp at hp

/-- The thread puts something out even if it sees an error: it has seen room for
its chunk, or may still accept the tag. -/
def Bound (l : Local sk) : Prop :=
  match l.pc with
  | .spin | .enque | .peek | .fetch2 | .doneIsFull | .queueDone => True
  | _ => False

instance (l : Local sk) : Decidable (Bound l) := by
  unfold Bound
  split <;> infer_instance

/-- After an error the room the thread needs is not lost. -/
theorem Moves.bound (h : Moves tf tf_key mc l fl inq out l' fl' inq' out') (herr : fl'.error ≠ none)
    (hB : Bound l → out.HasRoom) (hb : Bound l') : out'.HasRoom := by
  obtain ⟨pc, hdr, md, mch, ctx, cm, st⟩ := l
  cases h with
  | empty _ he _ => exact absurd he herr
  | kept _ he _ => exact absurd he herr
  | taken _ _ _ _ =>
    unfold Bound at hb
    rcases work_pc mc ⟨pc, hdr, md, mch, ctx, cm, st⟩ _ with h | h | h <;> rw [h] at hb <;> exact hb.elim
  | seen _ _ _ _ =>
    unfold Bound at hb
    rcases work_pc mc ⟨pc, hdr, md, mch, ctx, cm, st⟩ _ with h | h | h <;> rw [h] at hb <;> exact hb.elim
  | setValid _ _ => simp [Bound] at hb
  | tryRoom _ hr => exact hr
  | full _ _ => exact hB hb
  | room _ hr => exact hr
  | queued _ _ _ _ => exact hb.elim
  | noError2 _ he => exact absurd he herr
  | peekSome hp _ => cases hp; exact hB trivial
  | compared hp _ _ => cases hp; exact hB trivial
  | doneFull _ _ => exact hB hb
  | doneRoom _ hr => exact hr
  | doneQueued _ _ _ => exact hb.elim
  | _ => exact hb.elim

/-- How far a thread that sees an error is from its end. -/
def rank (l : Local sk) : ℕ :=
  match l.pc with
  | .fetch => 16
  | .headerAlloc => 15
  | .setValid => 14
  | .tryFull => 13
  | .spin => 12
  | .enque => 11
  | .testRunning => 10
  | .testError => 9
  | .macAlloc | .peek => 8
  | .fetch2 => 7
  | .test2Running => 6
  | .test2Error => 5
  | .doneIsFull => 4
  | .queueDone => 3
  | .fail _ => 1
  | .returned => 0

variable (mc) in
theorem rank_work (l : Local sk) (c : Chunk) : rank (work mc l c) < 16 := by
  unfold rank
  rcases work_pc mc l c with h | h | h <;> rw [h] <;> decide

variable (mc) in
theorem rank_compare (l : Local sk) (m : Chunk) : rank (compare mc l m) < 7 := by
  unfold rank
  rcases compare_pc mc l m with h | h <;> rw [h] <;> decide

variable (tf tf_key mc) in
/-- With an error set and room, if it needs it, the thread comes nearer to its end. -/
theorem progress (herr : fl.error ≠ none) (hroom : Bound l → out.HasRoom) (hin : inq.locked = false)
    (hlock : out.locked = false) (hH : Holding l) (hp : l.pc ≠ .returned) :
    ∃ l' fl' inq' out', step tf tf_key mc l fl inq out .success = some (l', fl', inq', out') ∧
      rank l' < rank l := by
  obtain ⟨pc, hdr, md, mch, ctx, cm, st⟩ := l
  cases pc with
  | testRunning => cases hr : fl.running <;> simp [step, hr, rank]
  | testError => simp [step, herr, rank]
  | fetch =>
    cases hf : inq.front with
    | none => simp [step, hin, hf, rank]
    | some c => simpa [step, hin, hf, rank] using rank_work mc _ c
  | headerAlloc =>
    obtain ⟨c, hc⟩ := Option.ne_none_iff_exists'.mp (hH (Or.inl rfl))
    cases hc
    cases hn : headerSize tf tf_key c <;> simp [step, hn, rank]
  | setValid =>
    obtain ⟨c, hc⟩ := Option.ne_none_iff_exists'.mp (hH (Or.inr rfl))
    cases hc
    simp [step, rank]
  | tryFull => cases hq : out.queueIsFull <;> simp [step, hq, rank]
  | spin => simp [step, hasRoom_iff.mp (hroom trivial), rank]
  | enque => cases hq : mch.bind fun c => out.enque c <;> simp [step, hlock, hq, rank]
  | macAlloc => simp [step, rank]
  | test2Running => cases hr : fl.running <;> simp [step, hr, rank]
  | test2Error => simp [step, herr, rank]
  | peek => cases hf : inq.front <;> simp [step, hf, rank]
  | fetch2 =>
    cases hf : inq.front with
    | none => simp [step, hin, hf, rank]
    | some m => simpa [step, hin, hf, rank] using rank_compare mc _ m
  | doneIsFull => simp [step, hasRoom_iff.mp (hroom trivial), rank]
  | queueDone =>
    obtain ⟨out', hq⟩ := enque_of_room doneChunk (hroom trivial)
    simp [step, hlock, queueDone, hq, rank]
  | fail code => simp [step, rank]
  | returned => exact absurd rfl hp

end AuthThread

end Threefizer
