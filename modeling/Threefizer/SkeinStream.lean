/-
# Skein as it runs (`skein.c`, `skeinApi.c`)

A context holds the chaining variables, the tweak words and one buffer for the
bytes of the block that is not yet processed. `Skein_256_Update` and its
siblings finish the buffered block, process whole blocks straight from the
message and buffer the rest; the last block stays in the buffer even when it
is full, because it has to be marked as final. The assertions of the source,
that what is copied into the buffer fits, are proofs that the copies ask for.

So a context that is fed in pieces has processed what `SkeinApi` processes of
all bytes at once, whatever the pieces (`fed_update`), and delivers the same
digest (`skeinFinal_pieces`). What a context was used for before is forgotten
with `skeinReset`, whatever the calls were (`skeinReset_forgets`); the bytes
that stay behind in the buffer are never read.

Both are for a context made by `skeinMacInit` or `skeinInit`. The pointers and
the codes returned are left out.
-/
import Threefizer.Lib.Absorb
import Threefizer.Lib.Overlay
import Threefizer.SkeinApi

namespace Threefizer

open Words

namespace SkeinStream

open Skein3fish (Chaining startNewType processBlock processBlocks finalBlock FLAG_FINAL BLK_TYPE_KEY BLK_TYPE_CFG
  BLK_TYPE_MSG BLK_TYPE_OUT SCHEMA_VER)

/-! ### Contexts -/

/-- `Skein_256_Ctxt_t` and its siblings: the length of the digest in bits, the
number of bytes in the buffer `b`, the tweak words and the chaining variables. -/
structure Ctxt (s : SkeinSize) where
  hashBitLen : ℕ
  bCnt : ℕ
  chaining : Chaining
  b : List Byte
  length_b : b.length = s.bytes
  bCnt_le : bCnt ≤ s.bytes

variable {s : SkeinSize}

namespace Ctxt

/-- `memcpy(&ctx->b[ctx->h.bCnt], src, n)` and the new count. -/
def copyIn (ctx : Ctxt s) (src : List Byte) (h : ctx.bCnt + src.length ≤ s.bytes) : Ctxt s :=
  { ctx with
    b := Overlay.writeAt 0 ctx.b ctx.bCnt src
    bCnt := ctx.bCnt + src.length
    length_b := (Overlay.length_writeAt 0 (by rw [ctx.length_b]; exact h)).trans ctx.length_b
    bCnt_le := h }

/-- `Skein_Start_New_Type`. -/
def newType (ctx : Ctxt s) (X : List Word) (blk_type : Word) : Ctxt s :=
  { ctx with chaining := startNewType X blk_type, bCnt := 0, bCnt_le := Nat.zero_le _ }

/-- The bytes in the buffer. -/
def pending (ctx : Ctxt s) : List Byte := ctx.b.take ctx.bCnt

end Ctxt

/-! ### Feeding -/

/-- The first part of `Skein_256_Update`, for a message that runs past the
buffer: finish up any buffered data. -/
def finishBlock (ctx : Ctxt s) (msg : List Byte) : Ctxt s × List Byte :=
  if ctx.bCnt = 0 then (ctx, msg)
  else
    let n := s.bytes - ctx.bCnt
    let full := ctx.copyIn (msg.take n) (by
      have := ctx.bCnt_le
      rw [List.length_take]
      omega)
    ({ full with
        chaining := processBlock s full.chaining (wordsOf full.b) (UInt64.ofNat s.bytes)
        bCnt := 0
        bCnt_le := Nat.zero_le _ }, msg.drop n)

theorem finishBlock_bCnt (ctx : Ctxt s) (msg : List Byte) : (finishBlock ctx msg).1.bCnt = 0 := by
  unfold finishBlock
  split
  · assumption
  · rfl

/-- The second part: any remaining full blocks, directly from the message. -/
def fullBlocks (s : SkeinSize) (c : Chaining) (msg : List Byte) : Chaining × List Byte :=
  if s.bytes < msg.length then processBlocks s ((msg.length - 1) / s.bytes) c msg else (c, msg)

theorem fullBlocks_eq (s : SkeinSize) (c : Chaining) (msg : List Byte) :
    fullBlocks s c msg = processBlocks s ((msg.length - 1) / s.bytes) c msg := by
  unfold fullBlocks
  split
  · rfl
  · have hpos := s.bytes_pos
    have hzero : (msg.length - 1) / s.bytes = 0 := Nat.div_eq_of_lt (by omega)
    rw [hzero]
    rfl

/-- `processBlocks` with the step and the width explicit. -/
theorem processBlocks_eq (s : SkeinSize) : ∀ (n : ℕ) (c : Chaining) (msg : List Byte),
    processBlocks s n c msg = Absorb.run s.bytes (fun c blk => processBlock s c (wordsOf blk) (UInt64.ofNat s.bytes)) n c msg
  | 0, _, _ => rfl
  | n + 1, _, _ => processBlocks_eq s n _ _

/-- The blocks of a stream but the last. -/
def absorb (s : SkeinSize) : Chaining → List Byte → Chaining × List Byte :=
  Absorb.absorb s.bytes fun c blk => processBlock s c (wordsOf blk) (UInt64.ofNat s.bytes)

theorem fullBlocks_absorb (c : Chaining) (msg : List Byte) : fullBlocks s c msg = absorb s c msg := by
  rw [fullBlocks_eq, processBlocks_eq]
  rfl

theorem length_fullBlocks (c : Chaining) (msg : List Byte) : (fullBlocks s c msg).2.length ≤ s.bytes := by
  rw [fullBlocks_absorb]
  exact Absorb.length_absorb s.bytes_pos c msg

/-- `Skein_256_Update` and its siblings. -/
def update (ctx : Ctxt s) (msg : List Byte) : Ctxt s :=
  if h : s.bytes < msg.length + ctx.bCnt then
    let st := finishBlock ctx msg
    let r := fullBlocks s st.1.chaining st.2
    { st.1 with chaining := r.1 }.copyIn r.2 (by
      show st.1.bCnt + r.2.length ≤ s.bytes
      rw [finishBlock_bCnt, Nat.zero_add]
      exact length_fullBlocks _ _)
  else ctx.copyIn msg (by omega)

theorem pending_copyIn (ctx : Ctxt s) (src : List Byte) (h : ctx.bCnt + src.length ≤ s.bytes) :
    (ctx.copyIn src h).pending = ctx.pending ++ src :=
  Overlay.take_writeAt 0 (by rw [ctx.length_b]; exact ctx.bCnt_le)

theorem pending_of_zero {ctx : Ctxt s} (h : ctx.bCnt = 0) : ctx.pending = [] := by
  rw [Ctxt.pending, h, List.take_zero]

theorem length_pending (ctx : Ctxt s) : ctx.pending.length = ctx.bCnt := by
  rw [Ctxt.pending, List.length_take, ctx.length_b, Nat.min_eq_left ctx.bCnt_le]

/-- A full buffer is all that is pending. -/
theorem pending_of_full {ctx : Ctxt s} (h : ctx.bCnt = s.bytes) : ctx.pending = ctx.b := by
  rw [Ctxt.pending, h, ← ctx.length_b, List.take_length]

theorem finishBlock_absorb (ctx : Ctxt s) (msg : List Byte) (h : s.bytes < msg.length + ctx.bCnt) :
    absorb s (finishBlock ctx msg).1.chaining (finishBlock ctx msg).2 =
      absorb s ctx.chaining (ctx.pending ++ msg) := by
  unfold finishBlock
  split
  next h0 => rw [pending_of_zero h0, List.nil_append]
  next h0 =>
    have hle := ctx.bCnt_le
    have hp := length_pending ctx
    have hn : (msg.take (s.bytes - ctx.bCnt)).length = s.bytes - ctx.bCnt := by rw [List.length_take]; omega
    have hlen : (ctx.pending ++ msg).length = msg.length + ctx.bCnt := by
      rw [List.length_append, hp, Nat.add_comm]
    have hfit : ctx.bCnt + (msg.take (s.bytes - ctx.bCnt)).length ≤ s.bytes := by omega
    have hfull : (ctx.copyIn (msg.take (s.bytes - ctx.bCnt)) hfit).b = (ctx.pending ++ msg).take s.bytes := by
      have hcnt : (ctx.copyIn (msg.take (s.bytes - ctx.bCnt)) hfit).bCnt = s.bytes := by
        show ctx.bCnt + _ = s.bytes
        omega
      rw [← pending_of_full hcnt, pending_copyIn, List.take_append, hp,
        List.take_of_length_le (l := ctx.pending) (hp ▸ hle)]
    have hrest : msg.drop (s.bytes - ctx.bCnt) = (ctx.pending ++ msg).drop s.bytes := by
      rw [List.drop_append, hp, List.drop_of_length_le (l := ctx.pending) (hp ▸ hle), List.nil_append]
    have hone := Absorb.absorb_of_lt (f := fun c blk => processBlock s c (wordsOf blk) (UInt64.ofNat s.bytes))
      (c := ctx.chaining) s.bytes_pos (hlen ▸ h)
    rw [← hrest, ← hfull] at hone
    exact hone.symm

/-- **What an update leaves is what is left of the pending bytes and the message.** -/
theorem update_absorb (ctx : Ctxt s) (msg : List Byte) :
    ((update ctx msg).chaining, (update ctx msg).pending) = absorb s ctx.chaining (ctx.pending ++ msg) := by
  unfold update
  split
  next h =>
    have hzero := finishBlock_bCnt ctx msg
    rw [← finishBlock_absorb ctx msg h, pending_copyIn, ← fullBlocks_absorb]
    refine Prod.ext rfl ?_
    show List.take (finishBlock ctx msg).1.bCnt _ ++ _ = _
    rw [hzero, List.take_zero, List.nil_append]
  next h =>
    have hle : (ctx.pending ++ msg).length ≤ s.bytes := by
      rw [List.length_append, length_pending]
      omega
    rw [pending_copyIn, absorb, Absorb.absorb_of_le s.bytes_pos hle]
    rfl

/-! ### Finishing -/

/-- The block buffer padded with zeros. -/
def Ctxt.zeroPad (ctx : Ctxt s) : Ctxt s :=
  { ctx with
    b := Overlay.writeAt 0 ctx.b ctx.bCnt (List.replicate (s.bytes - ctx.bCnt) 0)
    length_b := (Overlay.length_writeAt 0 (by
      have := ctx.bCnt_le
      rw [List.length_replicate, ctx.length_b]
      omega)).trans ctx.length_b }

/-- `Skein_256_Final_Pad` and its siblings: the final block, and the state bytes. -/
def finalPad (ctx : Ctxt s) : Ctxt s × List Byte :=
  let ctx := ctx.zeroPad
  let c := processBlock s { ctx.chaining with T1 := ctx.chaining.T1 ||| FLAG_FINAL } (wordsOf ctx.b)
    (UInt64.ofNat ctx.bCnt)
  ({ ctx with chaining := c }, bytesOf c.X)

/-- One round of the loop of `Skein_256_Output`, with the counter mode "key" `X`. -/
def outputStep (X : List Word) (byteCnt : ℕ) (st : Ctxt s × List Byte) (i : ℕ) : Ctxt s × List Byte :=
  let ctx := { st.1 with
    b := Overlay.writeAt 0 st.1.b 0 (wordBytes (UInt64.ofNat i))
    length_b := (Overlay.length_writeAt 0 (by
      rw [length_wordBytes, st.1.length_b, s.bytes_eq]
      have := s.words_pos
      omega)).trans st.1.length_b }
  let c := processBlock s (startNewType ctx.chaining.X (BLK_TYPE_OUT ||| FLAG_FINAL)) (wordsOf ctx.b) 8
  let n := byteCnt - i * s.bytes
  let n := if n ≥ s.bytes then s.bytes else n
  ({ ctx with chaining := { c with X := X }, bCnt := 0, bCnt_le := Nat.zero_le _ }, st.2 ++ (bytesOf c.X).take n)

/-- `Skein_256_Output` and its siblings: a block for every `i` with
`i*SKEIN_256_BLOCK_BYTES < byteCnt`. -/
def output (ctx : Ctxt s) : Ctxt s × List Byte :=
  let byteCnt := (ctx.hashBitLen + 7) / 8
  (List.range (blockCount byteCnt s)).foldl (outputStep ctx.chaining.X byteCnt)
    ({ ctx with b := List.replicate s.bytes 0, length_b := List.length_replicate }, [])

/-- `Skein_256_Final` and its siblings. -/
def final (ctx : Ctxt s) : Ctxt s × List Byte := output (finalPad ctx).1

/-! ### Starting -/

/-- `Skein_256_InitExt` and its siblings: the key is hashed with the context
itself, then the config block is processed. -/
def initExt (ctx : Ctxt s) (hashBitLen : ℕ) (treeInfo : Word) (key : List Byte) : Ctxt s × List Word :=
  let st :=
    if key = [] then (ctx, List.replicate s.words 0)
    else
      let ctx := { ctx with hashBitLen := s.bits }.newType (List.replicate s.words 0) BLK_TYPE_KEY
      let r := finalPad (update ctx key)
      (r.1, wordsOf r.2)
  let cfg := [SCHEMA_VER, UInt64.ofNat hashBitLen, treeInfo] ++ List.replicate (s.words - 3) 0
  let c := processBlock s (startNewType st.2 (BLK_TYPE_CFG ||| FLAG_FINAL)) cfg 32
  ({ st.1 with hashBitLen := hashBitLen }.newType c.X BLK_TYPE_MSG, c.X)

/-! ### The interface (`skeinApi.c`) -/

/-- `SkeinCtx_t` for the size `s`, its field `skeinSize`: the chaining
variables saved for `skeinReset`, and the context of that size. -/
structure SkeinCtx (s : SkeinSize) where
  XSave : List Word
  m : Ctxt s

def skeinCtxPrepare (s : SkeinSize) : SkeinCtx s where
  XSave := List.replicate s.words 0
  m :=
    { hashBitLen := 0
      bCnt := 0
      chaining := ⟨List.replicate s.words 0, 0, 0⟩
      b := List.replicate s.bytes 0
      length_b := List.length_replicate
      bCnt_le := Nat.zero_le _ }

/-- `SKEIN_CFG_TREE_INFO(0,0,0)`. -/
def TREE_INFO_SEQUENTIAL : Word := 0

def skeinInit (ctx : SkeinCtx s) (hashBitLen : ℕ) : SkeinCtx s :=
  let r := initExt ctx.m hashBitLen TREE_INFO_SEQUENTIAL []
  ⟨r.2, r.1⟩

/-- `skeinMacInit`; it refuses a digest of no bits. -/
def skeinMacInit (ctx : SkeinCtx s) (key : List Byte) (hashBitLen : ℕ) : SkeinCtx s :=
  if hashBitLen = 0 then ctx
  else
    let r := initExt ctx.m hashBitLen TREE_INFO_SEQUENTIAL key
    ⟨r.2, r.1⟩

def skeinReset (ctx : SkeinCtx s) : SkeinCtx s := { ctx with m := ctx.m.newType ctx.XSave BLK_TYPE_MSG }

def skeinUpdate (ctx : SkeinCtx s) (msg : List Byte) : SkeinCtx s := { ctx with m := update ctx.m msg }

/-- `SKEIN_T1_FLAG_BIT_PAD`, bit 119 of the tweak. -/
def FLAG_BIT_PAD : Word := (1 : Word) <<< 55

/-- The final partial byte, padded the way NIST likes. -/
def bitPad (msgBitCnt : ℕ) (up : Byte) : Byte :=
  let mask : Byte := 1 <<< UInt8.ofNat (7 - (msgBitCnt &&& 7))
  (up &&& (0 - mask)) ||| mask

/-- The buffer with the final partial byte padded, and the tweak marked. -/
def padLast (ctx : Ctxt s) (msgBitCnt : ℕ) : Ctxt s :=
  { ctx with
    chaining := { ctx.chaining with T1 := ctx.chaining.T1 ||| FLAG_BIT_PAD }
    b := ctx.b.modify (ctx.bCnt - 1) (bitPad msgBitCnt)
    length_b := (List.length_modify _ _ _).trans ctx.length_b }

/-- `skeinUpdateBits`; after a partial byte it refuses any more bits. -/
def skeinUpdateBits (ctx : SkeinCtx s) (msg : List Byte) (msgBitCnt : ℕ) : Option (SkeinCtx s) :=
  if ctx.m.chaining.T1 &&& FLAG_BIT_PAD = 0 ∨ msgBitCnt = 0 then
    if msgBitCnt &&& 7 = 0 then some (skeinUpdate ctx (msg.take (msgBitCnt >>> 3)))
    else
      let ctx := skeinUpdate ctx (msg.take ((msgBitCnt >>> 3) + 1))
      some { ctx with m := padLast ctx.m msgBitCnt }
  else none

def skeinFinal (ctx : SkeinCtx s) : SkeinCtx s × List Byte :=
  let r := final ctx.m
  ({ ctx with m := r.1 }, r.2)

/-! ### What a context has taken in -/

/-- The context was started with the chaining `c` and has been fed `msg`. -/
def Fed (ctx : Ctxt s) (c : Chaining) (msg : List Byte) : Prop := (ctx.chaining, ctx.pending) = absorb s c msg

theorem fed_newType (ctx : Ctxt s) (X : List Word) (blk_type : Word) :
    Fed (ctx.newType X blk_type) (startNewType X blk_type) [] := by
  rw [Fed, absorb, Absorb.absorb_of_le s.bytes_pos (Nat.zero_le _)]
  rfl

theorem fed_update {ctx : Ctxt s} {c : Chaining} {msg : List Byte} (h : Fed ctx c msg) (piece : List Byte) :
    Fed (update ctx piece) c (msg ++ piece) := by
  have hsplit : absorb s c (msg ++ piece) = absorb s (absorb s c msg).1 ((absorb s c msg).2 ++ piece) :=
    Absorb.absorb_append s.bytes_pos c msg piece
  rw [Fed, update_absorb, hsplit, ← h]

theorem hashBitLen_finishBlock (ctx : Ctxt s) (msg : List Byte) :
    (finishBlock ctx msg).1.hashBitLen = ctx.hashBitLen := by
  unfold finishBlock
  split <;> rfl

@[simp] theorem hashBitLen_update (ctx : Ctxt s) (msg : List Byte) :
    (update ctx msg).hashBitLen = ctx.hashBitLen := by
  unfold update
  split
  · exact hashBitLen_finishBlock ctx msg
  · rfl

/-- Padding fills the buffer behind the pending bytes, whatever it held there. -/
theorem zeroPad_b (ctx : Ctxt s) : ctx.zeroPad.b = ctx.pending ++ List.replicate (s.bytes - ctx.bCnt) 0 := by
  have hle := ctx.bCnt_le
  have hend : ctx.bCnt + (List.replicate (s.bytes - ctx.bCnt) (0 : Byte)).length = s.bytes := by
    rw [List.length_replicate]
    omega
  have htake : List.take _ ctx.zeroPad.b = ctx.pending ++ List.replicate (s.bytes - ctx.bCnt) 0 :=
    Overlay.take_writeAt 0 (ctx.length_b ▸ hle)
  rwa [hend, List.take_of_length_le ctx.zeroPad.length_b.le] at htake

/-- The final block is the pending bytes and zeros. -/
theorem finalPad_eq (ctx : Ctxt s) : (finalPad ctx).1.chaining = processBlock s
    { ctx.chaining with T1 := ctx.chaining.T1 ||| FLAG_FINAL }
    (wordsOf (ctx.pending ++ List.replicate (s.bytes - ctx.pending.length) 0))
    (UInt64.ofNat ctx.pending.length) := by
  rw [length_pending, ← zeroPad_b]
  rfl

/-- **The final block of a context is that of all it was fed.** -/
theorem finalPad_fed {ctx : Ctxt s} {c : Chaining} {msg : List Byte} (h : Fed ctx c msg) :
    (finalPad ctx).1.chaining = finalBlock s c msg := by
  have hchaining : ctx.chaining = (absorb s c msg).1 := congrArg Prod.fst h
  have hpending : ctx.pending = (absorb s c msg).2 := congrArg Prod.snd h
  rw [finalPad_eq, hchaining, hpending, finalBlock, processBlocks_eq]
  rfl

theorem bytesOf_replicate_zero : ∀ n, bytesOf (List.replicate n 0) = List.replicate (8 * n) 0
  | 0 => rfl
  | n + 1 => by
    rw [List.replicate_succ, bytesOf_cons, bytesOf_replicate_zero n, Nat.mul_succ, Nat.add_comm,
      List.replicate_add]
    rfl

theorem wordsOf_counter (s : SkeinSize) (i : Word) :
    wordsOf (wordBytes i ++ List.replicate (s.bytes - 8) 0) = i :: List.replicate (s.words - 1) 0 := by
  have hzero : ∀ n, wordsOf (List.replicate (8 * n) 0) = List.replicate n 0 := by
    intro n
    rw [← bytesOf_replicate_zero, wordsOf_bytesOf]
  have hlen : s.bytes - 8 = 8 * (s.words - 1) := by
    rw [s.bytes_eq]
    omega
  rw [wordsOf_append_eight (length_wordBytes i), wordOf_wordBytes, hlen, hzero]

/-- The state of the loop of the output: the "key" restored, the buffer a counter block. -/
structure Counting (X : List Word) (ctx : Ctxt s) : Prop where
  key : ctx.chaining.X = X
  rest : ctx.b.drop 8 = List.replicate (s.bytes - 8) 0

theorem outputStep_spec {X : List Word} {byteCnt i : ℕ} {st : Ctxt s × List Byte} (h : Counting X st.1) :
    Counting X (outputStep X byteCnt st i).1 ∧
      (outputStep X byteCnt st i).2 = st.2 ++ (SkeinApi.outputBlock s X i).take (byteCnt - i * s.bytes) := by
  have hb : Overlay.writeAt 0 st.1.b 0 (wordBytes (UInt64.ofNat i)) =
      wordBytes (UInt64.ofNat i) ++ List.replicate (s.bytes - 8) 0 := by
    rw [← h.rest]
    simp [Overlay.writeAt]
  have hlen := SkeinApi.length_outputBlock s X i
  refine ⟨⟨rfl, ?_⟩, ?_⟩
  · show (Overlay.writeAt 0 st.1.b 0 (wordBytes (UInt64.ofNat i))).drop 8 = _
    rw [hb, List.drop_left' (length_wordBytes _)]
  · have hblock : bytesOf (processBlock s (startNewType st.1.chaining.X (BLK_TYPE_OUT ||| FLAG_FINAL))
        (wordsOf (Overlay.writeAt 0 st.1.b 0 (wordBytes (UInt64.ofNat i)))) 8).X = SkeinApi.outputBlock s X i := by
      rw [hb, wordsOf_counter, h.key]
      rfl
    show st.2 ++ List.take _ (bytesOf _) = _
    rw [hblock]
    split
    next hn => rw [List.take_of_length_le (by omega), List.take_of_length_le (by omega)]
    next => rfl

/-- The output of a context depends on its chaining variables and the length asked for. -/
theorem output_eq (ctx : Ctxt s) : (output ctx).2 =
    ((List.range (blockCount ((ctx.hashBitLen + 7) / 8) s)).flatMap
      (SkeinApi.outputBlock s ctx.chaining.X)).take ((ctx.hashBitLen + 7) / 8) := by
  have hloop : ∀ (X : List Word) (byteCnt : ℕ) (ctx : Ctxt s), Counting X ctx → ∀ n,
      Counting X ((List.range n).foldl (outputStep X byteCnt) (ctx, [])).1 ∧
        ((List.range n).foldl (outputStep X byteCnt) (ctx, [])).2 =
          ((List.range n).flatMap (SkeinApi.outputBlock s X)).take byteCnt := by
    intro X byteCnt ctx hctx n
    induction n with
    | zero => exact ⟨hctx, by simp⟩
    | succ n ih =>
      have hlen : ((List.range n).flatMap (SkeinApi.outputBlock s X)).length = n * s.bytes := by
        simp [List.length_flatMap, SkeinApi.length_outputBlock]
      obtain ⟨hcount, hout⟩ := outputStep_spec (i := n) ih.1
      rw [List.range_succ, List.foldl_append, List.foldl_cons, List.foldl_nil, List.flatMap_append,
        List.flatMap_singleton, List.take_append, hlen]
      exact ⟨hcount, hout.trans (by rw [ih.2])⟩
  refine (hloop ctx.chaining.X _ { ctx with b := List.replicate s.bytes 0, length_b := List.length_replicate }
    ⟨rfl, ?_⟩ _).2
  exact List.drop_replicate

theorem final_fed {ctx : Ctxt s} {c : Chaining} {msg : List Byte} (h : Fed ctx c msg) :
    (final ctx).2 = ((List.range (blockCount ((ctx.hashBitLen + 7) / 8) s)).flatMap
      (SkeinApi.outputBlock s (finalBlock s c msg).X)).take ((ctx.hashBitLen + 7) / 8) := by
  rw [final, output_eq, finalPad_fed h]
  rfl

/-! ### A context over its life -/

theorem hashBitLen_finalPad (ctx : Ctxt s) : (finalPad ctx).1.hashBitLen = ctx.hashBitLen := rfl

theorem hashBitLen_final (ctx : Ctxt s) : (final ctx).1.hashBitLen = ctx.hashBitLen := by
  have hloop : ∀ (X : List Word) (byteCnt : ℕ) (st : Ctxt s × List Byte) (l : List ℕ),
      (l.foldl (outputStep X byteCnt) st).1.hashBitLen = st.1.hashBitLen := by
    intro X byteCnt st l
    induction l generalizing st with
    | nil => rfl
    | cons i l ih => exact ih (outputStep X byteCnt st i)
  exact (hloop _ _ _ _).trans (hashBitLen_finalPad ctx)

/-- The context was set up for the key and a digest of `hashBitLen` bits. -/
structure Keyed (ctx : SkeinCtx s) (key : List Byte) (hashBitLen : ℕ) : Prop where
  XSave : ctx.XSave = (SkeinApi.initExt s hashBitLen key).X
  len : ctx.m.hashBitLen = hashBitLen

/-- It has been fed `msg` since it was set up, or reset. -/
def Holds (ctx : SkeinCtx s) (key : List Byte) (hashBitLen : ℕ) (msg : List Byte) : Prop :=
  Fed ctx.m (startNewType (SkeinApi.initExt s hashBitLen key).X BLK_TYPE_MSG) msg

/-- The key is hashed by the context itself, whatever it was used for before. -/
theorem initExt_spec (ctx : Ctxt s) (hashBitLen : ℕ) (key : List Byte) :
    (initExt ctx hashBitLen TREE_INFO_SEQUENTIAL key).2 = (SkeinApi.initExt s hashBitLen key).X := by
  have hkey : (if key = [] then (ctx, List.replicate s.words 0)
      else
        let ctx := { ctx with hashBitLen := s.bits }.newType (List.replicate s.words 0) BLK_TYPE_KEY
        let r := finalPad (update ctx key)
        (r.1, wordsOf r.2)).2 = SkeinApi.keyChaining s key := by
    unfold SkeinApi.keyChaining
    split
    next => rfl
    next =>
      have hfed := fed_update
        (fed_newType { ctx with hashBitLen := s.bits } (List.replicate s.words 0) BLK_TYPE_KEY) key
      show wordsOf (bytesOf (finalPad _).1.chaining.X) = _
      rw [wordsOf_bytesOf, finalPad_fed hfed, List.nil_append]
  unfold initExt
  dsimp only
  rw [hkey]
  rfl

theorem keyed_init (ctx : SkeinCtx s) (hashBitLen : ℕ) (key : List Byte) :
    Keyed ⟨(initExt ctx.m hashBitLen TREE_INFO_SEQUENTIAL key).2,
      (initExt ctx.m hashBitLen TREE_INFO_SEQUENTIAL key).1⟩ key hashBitLen :=
  ⟨initExt_spec ctx.m hashBitLen key, rfl⟩

theorem holds_init (ctx : SkeinCtx s) (hashBitLen : ℕ) (key : List Byte) :
    Holds ⟨(initExt ctx.m hashBitLen TREE_INFO_SEQUENTIAL key).2,
      (initExt ctx.m hashBitLen TREE_INFO_SEQUENTIAL key).1⟩ key hashBitLen [] := by
  rw [Holds, ← initExt_spec ctx.m hashBitLen key]
  exact fed_newType _ _ _

section
variable {ctx : SkeinCtx s} {key msg : List Byte} {hashBitLen : ℕ}

theorem Keyed.skeinUpdate (h : Keyed ctx key hashBitLen) (piece : List Byte) :
    Keyed (SkeinStream.skeinUpdate ctx piece) key hashBitLen :=
  ⟨h.XSave, (hashBitLen_update ctx.m piece).trans h.len⟩

theorem Keyed.pieces (h : Keyed ctx key hashBitLen) (pieces : List (List Byte)) :
    Keyed (pieces.foldl SkeinStream.skeinUpdate ctx) key hashBitLen := by
  induction pieces generalizing ctx with
  | nil => exact h
  | cons piece pieces ih => exact ih (h.skeinUpdate piece)

theorem Holds.skeinUpdate (h : Holds ctx key hashBitLen msg) (piece : List Byte) :
    Holds (SkeinStream.skeinUpdate ctx piece) key hashBitLen (msg ++ piece) :=
  fed_update h piece

theorem Holds.pieces (h : Holds ctx key hashBitLen msg) (pieces : List (List Byte)) :
    Holds (pieces.foldl SkeinStream.skeinUpdate ctx) key hashBitLen (msg ++ pieces.flatten) := by
  induction pieces generalizing ctx msg with
  | nil => rwa [List.flatten_nil, List.append_nil]
  | cons piece pieces ih =>
    rw [List.flatten_cons, ← List.append_assoc]
    exact ih (h.skeinUpdate piece)

/-- What is delivered depends on the key, the length and what was fed. -/
theorem Holds.digest (h : Holds ctx key hashBitLen msg) (hk : Keyed ctx key hashBitLen) :
    (skeinFinal ctx).2 =
      SkeinApi.skeinFinal (SkeinApi.skeinUpdate (SkeinApi.skeinMacInit s key hashBitLen) msg) := by
  show (final ctx.m).2 = _
  rw [final_fed h, hk.len]
  rfl

end

/-- **A context that is fed in pieces delivers the digest of all of them at
once**, whatever it was used for before it was set up. -/
theorem skeinFinal_pieces (ctx : SkeinCtx s) (hashBitLen : ℕ) (pieces : List (List Byte)) :
    (skeinFinal (pieces.foldl skeinUpdate (skeinInit ctx hashBitLen))).2 =
        SkeinApi.skeinFinal (SkeinApi.skeinUpdate (SkeinApi.skeinInit s hashBitLen) pieces.flatten) ∧
      ∀ key, hashBitLen ≠ 0 →
        (skeinFinal (pieces.foldl skeinUpdate (skeinMacInit ctx key hashBitLen))).2 =
          SkeinApi.skeinFinal
            (SkeinApi.skeinUpdate (SkeinApi.skeinMacInit s key hashBitLen) pieces.flatten) := by
  have hinit : ∀ key, (skeinFinal (pieces.foldl skeinUpdate
      ⟨(initExt ctx.m hashBitLen TREE_INFO_SEQUENTIAL key).2,
        (initExt ctx.m hashBitLen TREE_INFO_SEQUENTIAL key).1⟩)).2 =
      SkeinApi.skeinFinal (SkeinApi.skeinUpdate (SkeinApi.skeinMacInit s key hashBitLen) pieces.flatten) :=
    fun key => ((holds_init ctx hashBitLen key).pieces pieces).digest
      ((keyed_init ctx hashBitLen key).pieces pieces)
  refine ⟨hinit [], fun key hne => ?_⟩
  rw [skeinMacInit, if_neg hne]
  exact hinit key

theorem skeinFinal_pieces_sample :
    (skeinFinal ([[1], [2, 3]].foldl skeinUpdate (skeinMacInit (skeinCtxPrepare .Skein256) [5] 24))).2 =
      [177, 125, 70] :=
  ((skeinFinal_pieces (skeinCtxPrepare .Skein256) 24 [[1], [2, 3]]).2 [5] (by decide)).trans (by decide +kernel)

/-! ### Resetting -/

/-- A call on a context that was set up. -/
inductive Call
  | update (msg : List Byte)
  | updateBits (msg : List Byte) (msgBitCnt : ℕ)
  | final
  | reset

def Call.run (ctx : SkeinCtx s) : Call → SkeinCtx s
  | .update msg => skeinUpdate ctx msg
  | .updateBits msg msgBitCnt => (skeinUpdateBits ctx msg msgBitCnt).getD ctx
  | .final => (skeinFinal ctx).1
  | .reset => skeinReset ctx

theorem Keyed.skeinUpdateBits {ctx ctx' : SkeinCtx s} {key : List Byte} {hashBitLen : ℕ}
    (h : Keyed ctx key hashBitLen) {msg : List Byte} {msgBitCnt : ℕ}
    (hbits : skeinUpdateBits ctx msg msgBitCnt = some ctx') : Keyed ctx' key hashBitLen := by
  unfold SkeinStream.skeinUpdateBits at hbits
  split at hbits
  · split at hbits <;> cases hbits
    · exact h.skeinUpdate _
    · exact ⟨h.XSave, (hashBitLen_update ctx.m _).trans h.len⟩
  · exact absurd hbits (by simp)

/-- Every call keeps the chaining variables saved and the length of the digest. -/
theorem Keyed.run {ctx : SkeinCtx s} {key : List Byte} {hashBitLen : ℕ} (h : Keyed ctx key hashBitLen)
    (c : Call) : Keyed (c.run ctx) key hashBitLen := by
  match c with
  | .update msg => exact h.skeinUpdate msg
  | .updateBits msg msgBitCnt =>
    show Keyed ((SkeinStream.skeinUpdateBits ctx msg msgBitCnt).getD ctx) key hashBitLen
    cases hbits : SkeinStream.skeinUpdateBits ctx msg msgBitCnt with
    | none => exact h
    | some ctx' => exact h.skeinUpdateBits hbits
  | .final => exact ⟨h.XSave, (hashBitLen_final ctx.m).trans h.len⟩
  | .reset => exact ⟨h.XSave, h.len⟩

theorem Keyed.calls {ctx : SkeinCtx s} {key : List Byte} {hashBitLen : ℕ} (h : Keyed ctx key hashBitLen)
    (calls : List Call) : Keyed (calls.foldl Call.run ctx) key hashBitLen := by
  induction calls generalizing ctx with
  | nil => exact h
  | cons c calls ih => exact ih (h.run c)

theorem Keyed.skeinReset {ctx : SkeinCtx s} {key : List Byte} {hashBitLen : ℕ} (h : Keyed ctx key hashBitLen) :
    Holds (skeinReset ctx) key hashBitLen [] := by
  rw [Holds, ← h.XSave]
  exact fed_newType _ _ _

/-- **A reset forgets every call since the context was set up**: what is fed
afterwards has the digest a new context gives it. -/
theorem skeinReset_forgets (ctx : SkeinCtx s) (key : List Byte) {hashBitLen : ℕ} (hne : hashBitLen ≠ 0)
    (calls : List Call) (pieces : List (List Byte)) :
    (skeinFinal (pieces.foldl skeinUpdate
      (skeinReset (calls.foldl Call.run (skeinMacInit ctx key hashBitLen))))).2 =
      SkeinApi.skeinFinal
        (SkeinApi.skeinUpdate (SkeinApi.skeinMacInit s key hashBitLen) pieces.flatten) := by
  have hkeyed : Keyed (calls.foldl Call.run (skeinMacInit ctx key hashBitLen)) key hashBitLen := by
    rw [skeinMacInit, if_neg hne]
    exact (keyed_init ctx hashBitLen key).calls calls
  exact (hkeyed.skeinReset.pieces pieces).digest ((hkeyed.run .reset).pieces pieces)

theorem skeinReset_forgets_sample :
    (skeinFinal ([[1], [2, 3]].foldl skeinUpdate (skeinReset
      ([.update [7], .updateBits [9] 3, .final].foldl Call.run (skeinMacInit (skeinCtxPrepare .Skein256) [5] 24))))).2 =
      [177, 125, 70] :=
  (skeinReset_forgets (skeinCtxPrepare .Skein256) [5] (by decide) _ _).trans (by decide +kernel)

end SkeinStream

end Threefizer
