/-
# Skein with a digest of any length (`skeinApi.c`, `skein.c`)

A context knows how long its digest is: `skeinMacInit` and `skeinInit` are told
it in bits and put it into the config block, and `skeinFinal` delivers that
many bytes, however long the buffer of its caller is. The digest is the output
of Threefish on a counter. A digest of one block, with a key of one block or
without a key, is the one `Skein3fish` calculates (`skeinFinal_skeinInit`,
`skeinFinal_skeinMacInit`).
-/
import Threefizer.Pad
import Threefizer.Skein3fish

namespace Threefizer

open Words

namespace SkeinApi

/-- A context: its size, the length of the digest in bits, the chaining
variables the message starts with, and the message. -/
structure SkeinCtx where
  skeinSize : SkeinSize
  hashBitLen : ℕ
  X : List Word
  msg : List Byte
  deriving DecidableEq, Repr

/-- The chaining variables before the config block: the hash of the key, if there is one. -/
def keyChaining (s : SkeinSize) (key : List Byte) : List Word :=
  if key = [] then List.replicate s.words 0
  else (Skein3fish.finalBlock s
    (Skein3fish.startNewType (List.replicate s.words 0) Skein3fish.BLK_TYPE_KEY) key).X

/-- `Skein_256_InitExt` and its siblings. -/
def initExt (s : SkeinSize) (hashBitLen : ℕ) (key : List Byte) : SkeinCtx :=
  let cfg := [Skein3fish.SCHEMA_VER, UInt64.ofNat hashBitLen, 0] ++ List.replicate (s.words - 3) 0
  let chaining := Skein3fish.startNewType (keyChaining s key) (Skein3fish.BLK_TYPE_CFG ||| Skein3fish.FLAG_FINAL)
  ⟨s, hashBitLen, (Skein3fish.processBlock s chaining cfg 32).X, []⟩

def skeinInit (s : SkeinSize) (hashBitLen : ℕ) : SkeinCtx := initExt s hashBitLen []

def skeinMacInit (s : SkeinSize) (key : List Byte) (hashBitLen : ℕ) : SkeinCtx := initExt s hashBitLen key

def skeinUpdate (ctx : SkeinCtx) (msg : List Byte) : SkeinCtx := { ctx with msg := ctx.msg ++ msg }

/-- The bytes `skeinFinal` delivers. -/
def SkeinCtx.byteCnt (ctx : SkeinCtx) : ℕ := (ctx.hashBitLen + 7) / 8

/-- The block number `i` of the output, with the counter mode "key" `X`. -/
def outputBlock (s : SkeinSize) (X : List Word) (i : ℕ) : List Byte :=
  bytesOf (Skein3fish.processBlock s (Skein3fish.startNewType X (Skein3fish.BLK_TYPE_OUT ||| Skein3fish.FLAG_FINAL))
    (UInt64.ofNat i :: List.replicate (s.words - 1) 0) 8).X

/-- `skeinFinal`: blocks of output until all bytes are delivered, of the last one only the start. -/
def skeinFinal (ctx : SkeinCtx) : List Byte :=
  let s := ctx.skeinSize
  let X := (Skein3fish.finalBlock s (Skein3fish.startNewType ctx.X Skein3fish.BLK_TYPE_MSG) ctx.msg).X
  ((List.range (blockCount ctx.byteCnt s)).flatMap (outputBlock s X)).take ctx.byteCnt

@[simp] theorem byteCnt_skeinMacInit (s : SkeinSize) (key : List Byte) (hashBitLen : ℕ) :
    (skeinMacInit s key hashBitLen).byteCnt = (hashBitLen + 7) / 8 := rfl

@[simp] theorem byteCnt_skeinUpdate (ctx : SkeinCtx) (msg : List Byte) :
    (skeinUpdate ctx msg).byteCnt = ctx.byteCnt := rfl

theorem length_outputBlock (s : SkeinSize) (X : List Word) (i : ℕ) : (outputBlock s X i).length = s.bytes := by
  have hw : (UInt64.ofNat i :: List.replicate (s.words - 1) 0).length = s.words := by
    have := s.words_pos
    rw [List.length_cons, List.length_replicate]
    omega
  rw [outputBlock, length_bytesOf, Skein3fish.length_processBlock _ _ hw, s.bytes_eq]

/-- The context alone decides how many bytes are delivered. -/
theorem length_skeinFinal (ctx : SkeinCtx) : (skeinFinal ctx).length = ctx.byteCnt := by
  have hblocks : ∀ n X, ((List.range n).flatMap (outputBlock ctx.skeinSize X)).length = n * ctx.skeinSize.bytes := by
    intro n X
    simp [List.length_flatMap, length_outputBlock]
  simp only [skeinFinal, List.length_take, hblocks]
  exact Nat.min_eq_left (le_blockCount_mul ctx.byteCnt ctx.skeinSize)

/-- A digest of one block. -/
theorem skeinFinal_block {ctx : SkeinCtx} (h : ctx.hashBitLen = ctx.skeinSize.bits) :
    skeinFinal ctx = bytesOf (Skein3fish.skeinFinal ⟨ctx.skeinSize, ctx.X, ctx.msg⟩) := by
  have hcnt : ctx.byteCnt = ctx.skeinSize.bytes := by
    rw [SkeinCtx.byteCnt, h]
    cases ctx.skeinSize <;> rfl
  have hone : blockCount ctx.skeinSize.bytes ctx.skeinSize = 1 := by
    have := blockCount_mul 1 ctx.skeinSize
    rwa [Nat.one_mul] at this
  have hzero : UInt64.ofNat 0 :: List.replicate (ctx.skeinSize.words - 1) 0 = List.replicate ctx.skeinSize.words 0 := by
    cases ctx.skeinSize <;> rfl
  simp only [skeinFinal, hcnt, hone, List.range_one, List.flatMap_singleton]
  rw [List.take_of_length_le (length_outputBlock _ _ _).le, outputBlock, hzero]
  rfl

theorem skeinFinal_skeinInit (s : SkeinSize) (input : List Byte) :
    skeinFinal (skeinUpdate (skeinInit s s.bits) input) = bytesOf (Skein3fish.keyHash s input) :=
  skeinFinal_block rfl

theorem skeinFinal_skeinMacInit (s : SkeinSize) {key : List Word} (hkey : key ≠ []) (msg : List Byte) :
    skeinFinal (skeinUpdate (skeinMacInit s ((bytesOf key).take s.bytes) s.bits) msg) =
      bytesOf (Skein3fish.skeinFinal (Skein3fish.skeinUpdate (Skein3fish.skeinMacInit s key) msg)) := by
  have hne : (bytesOf key).take s.bytes ≠ [] := by
    intro h
    have hlen := congrArg List.length h
    have hpos := List.length_pos_iff.mpr hkey
    have hbytes := s.bytes_pos
    rw [List.length_take, length_bytesOf, List.length_nil] at hlen
    omega
  rw [skeinFinal_block rfl]
  simp only [skeinUpdate, skeinMacInit, initExt, keyChaining, if_neg hne]
  rfl

end SkeinApi

end Threefizer
