/-
# Hashing a string of bits (`skeinUpdateBits`)

The last call that feeds a context may end inside a byte. `skeinUpdateBits`
lets the whole byte in, then clears in the buffer what is behind the last bit,
sets the bit there, and marks the tweak of the final block. So the digest is a
function of the string of bits alone (`skeinUpdateBits_final`): the bits of
all the pieces, a one and zeros up to the end of the byte, and the mark, from
which the string can be read back (`padBits_injective`). Once the mark is set
no more bits are let in.

Bits are read from the most significant one of each byte on.
-/
import Threefizer.SkeinStream

namespace Threefizer

open Words

namespace SkeinStream

open Skein3fish (Chaining startNewType processBlock addCount low32 FLAG_FIRST FLAG_FINAL BLK_TYPE_MSG)

/-! ### Strings of bits -/

/-- The bits of a byte. -/
def bitsOfByte (b : Byte) : List Bool := (List.range 8).map fun i => b.toNat.testBit (7 - i)

def byteOfBits (bits : List Bool) : Byte := UInt8.ofNat (bits.foldl (fun n b => 2 * n + b.toNat) 0)

def bitsOf (bs : List Byte) : List Bool := bs.flatMap bitsOfByte

/-- The bytes of a string of bits; a byte that is not complete is dropped. -/
def bytesOfBits (bits : List Bool) : List Byte :=
  if 8 ≤ bits.length then byteOfBits (bits.take 8) :: bytesOfBits (bits.drop 8) else []
termination_by bits.length
decreasing_by rw [List.length_drop]; omega

/-- A string of bits up to the end of its last byte, and whether this took a padding. -/
def padBits (bits : List Bool) : List Bool × Bool :=
  if bits.length % 8 = 0 then (bits, false)
  else (bits ++ true :: List.replicate (7 - bits.length % 8) false, true)

@[simp] theorem length_bitsOfByte (b : Byte) : (bitsOfByte b).length = 8 := by
  rw [bitsOfByte, List.length_map, List.length_range]

theorem byteOfBits_bitsOfByte (b : Byte) : byteOfBits (bitsOfByte b) = b := by
  have hall : ∀ n < 256, byteOfBits (bitsOfByte (UInt8.ofNat n)) = UInt8.ofNat n := by decide +kernel
  have hb := hall b.toNat b.toNat_lt
  rwa [UInt8.ofNat_toNat] at hb

theorem length_bitsOf (bs : List Byte) : (bitsOf bs).length = 8 * bs.length := by
  simp [bitsOf, List.length_flatMap, Nat.mul_comm]

theorem bitsOf_append (bs bs' : List Byte) : bitsOf (bs ++ bs') = bitsOf bs ++ bitsOf bs' := List.flatMap_append

theorem bytesOfBits_bitsOf (bs : List Byte) : bytesOfBits (bitsOf bs) = bs := by
  induction bs with
  | nil => rw [bytesOfBits]; rfl
  | cons b bs ih =>
    have hb := length_bitsOfByte b
    have hcons : bitsOf (b :: bs) = bitsOfByte b ++ bitsOf bs := rfl
    rw [bytesOfBits, if_pos (by rw [hcons, List.length_append]; omega), hcons, List.take_left' hb,
      List.drop_left' hb, ih, byteOfBits_bitsOfByte]

/-- The last byte after `skeinUpdateBits`: its first bits, a one and zeros. -/
theorem bitsOfByte_bitPad {msgBitCnt : ℕ} (h : msgBitCnt % 8 ≠ 0) (b : Byte) :
    bitsOfByte (bitPad msgBitCnt b) =
      (bitsOfByte b).take (msgBitCnt % 8) ++ true :: List.replicate (7 - msgBitCnt % 8) false := by
  have hall : ∀ k < 8, k ≠ 0 → ∀ n < 256,
      bitsOfByte ((UInt8.ofNat n &&& (0 - ((1 : Byte) <<< UInt8.ofNat (7 - k)))) |||
          ((1 : Byte) <<< UInt8.ofNat (7 - k))) =
        (bitsOfByte (UInt8.ofNat n)).take k ++ true :: List.replicate (7 - k) false := by decide +kernel
  have hb := hall (msgBitCnt % 8) (Nat.mod_lt _ (by decide)) h b.toNat b.toNat_lt
  rw [UInt8.ofNat_toNat] at hb
  have hand : msgBitCnt &&& 7 = msgBitCnt % 8 := Nat.and_two_pow_sub_one_eq_mod msgBitCnt 3
  rw [bitPad, hand]
  exact hb

/-- **The padding can be taken off again.** -/
theorem padBits_injective : Function.Injective padBits := by
  have hoff : ∀ (bits : List Bool) (k : ℕ), ((bits ++ true :: List.replicate k false).reverse.dropWhile (!·)) =
      true :: bits.reverse := by
    intro bits k
    rw [List.reverse_append, List.reverse_cons, List.reverse_replicate, List.append_assoc,
      List.dropWhile_append_of_pos (by simp)]
    rfl
  intro a b hab
  have hflag := congrArg Prod.snd hab
  have hbits := congrArg Prod.fst hab
  unfold padBits at hflag hbits
  by_cases ha : a.length % 8 = 0 <;> by_cases hb : b.length % 8 = 0 <;>
    simp only [ha, hb, if_true, if_false] at hflag hbits
  · exact hbits
  · exact absurd hflag (by decide)
  · exact absurd hflag (by decide)
  · have hrev := congrArg (fun l : List Bool => l.reverse.dropWhile (!·)) hbits
    simp only [hoff] at hrev
    exact List.reverse_injective (List.cons.inj hrev).2

/-! ### What is hashed of a string of bits -/

/-- The final block of all that was fed, its tweak marked with `flag`. -/
def finalBlockFlagged (s : SkeinSize) (flag : Word) (c : Chaining) (msg : List Byte) : Chaining :=
  let (c, rest) := absorb s c msg
  processBlock s { c with T1 := c.T1 ||| flag ||| FLAG_FINAL }
    (wordsOf (rest ++ List.replicate (s.bytes - rest.length) 0)) (UInt64.ofNat rest.length)

/-- The digest of a string of bits, for a key and a length of the digest in bits. -/
def digestBits (s : SkeinSize) (key : List Byte) (hashBitLen : ℕ) (bits : List Bool) : List Byte :=
  let padded := padBits bits
  let c := finalBlockFlagged s (if padded.2 then FLAG_BIT_PAD else 0)
    (startNewType (SkeinApi.initExt s hashBitLen key).X BLK_TYPE_MSG) (bytesOfBits padded.1)
  ((List.range (blockCount ((hashBitLen + 7) / 8) s)).flatMap (SkeinApi.outputBlock s c.X)).take ((hashBitLen + 7) / 8)

variable {s : SkeinSize}

/-! ### The mark -/

/-- The bytes counted and the flag of the first block do not touch the mark. -/
theorem mark_processBlock (c : Chaining) (w : List Word) (n : Word) :
    (processBlock s c w n).T1 &&& FLAG_BIT_PAD = c.T1 &&& FLAG_BIT_PAD := by
  have hlow : ∀ x, low32 x &&& FLAG_BIT_PAD = 0 := by
    intro x
    have hdisjoint : (0xffffffff : Word) &&& FLAG_BIT_PAD = 0 := by decide
    rw [low32, UInt64.and_assoc, hdisjoint, UInt64.and_zero]
  have hfirst : ~~~FLAG_FIRST &&& FLAG_BIT_PAD = FLAG_BIT_PAD := by decide
  have hor : ∀ x y z : Word, (x ||| y) &&& z = (x &&& z) ||| (y &&& z) :=
    fun x y z => UInt64.toBitVec_inj.mp BitVec.and_or_distrib_right
  show ((c.T1 ||| low32 _) &&& ~~~FLAG_FIRST) &&& FLAG_BIT_PAD = _
  rw [UInt64.and_assoc, hfirst, hor, hlow, UInt64.or_zero]

theorem mark_fed {ctx : Ctxt s} {X : List Word} {msg : List Byte} (h : Fed ctx (startNewType X BLK_TYPE_MSG) msg) :
    ctx.chaining.T1 &&& FLAG_BIT_PAD = 0 := by
  have hchaining : ctx.chaining = (absorb s (startNewType X BLK_TYPE_MSG) msg).1 := congrArg Prod.fst h
  have hkeep := Absorb.run_eq (w := s.bytes) (p := fun c : Chaining => c.T1 &&& FLAG_BIT_PAD)
    (f := fun c blk => processBlock s c (wordsOf blk) (UInt64.ofNat s.bytes))
    (fun c blk => mark_processBlock c (wordsOf blk) (UInt64.ofNat s.bytes))
    ((msg.length - 1) / s.bytes) (startNewType X BLK_TYPE_MSG) msg
  rw [hchaining]
  refine hkeep.trans ?_
  show (FLAG_FIRST ||| BLK_TYPE_MSG) &&& FLAG_BIT_PAD = 0
  decide

/-! ### The last call -/

/-- The context was started with the chaining `c`, has been fed `msg`, the last
byte of it partial, and carries the mark. -/
def FedBits (ctx : Ctxt s) (c : Chaining) (msg : List Byte) : Prop :=
  ctx.chaining = { (absorb s c msg).1 with T1 := (absorb s c msg).1.T1 ||| FLAG_BIT_PAD } ∧
    ctx.pending = (absorb s c msg).2

/-- Whole bytes and the one that is cut. -/
theorem take_bitsOf (front back : List Byte) (x : Byte) {r : ℕ} (hr : r ≤ 8) :
    (bitsOf (front ++ x :: back)).take (8 * front.length + r) = bitsOf front ++ (bitsOfByte x).take r := by
  have hsplit : bitsOf (front ++ x :: back) = bitsOf front ++ (bitsOfByte x ++ bitsOf back) := by simp [bitsOf]
  have hx := length_bitsOfByte x
  rw [hsplit, ← length_bitsOf front, List.take_length_add_append, List.take_append_of_le_length (hx ▸ hr)]

theorem length_bits_mod (fed : List Byte) {msg : List Byte} {msgBitCnt : ℕ} (hlen : msgBitCnt ≤ 8 * msg.length) :
    (bitsOf fed ++ (bitsOf msg).take msgBitCnt).length % 8 = msgBitCnt % 8 := by
  rw [List.length_append, length_bitsOf, List.length_take, length_bitsOf]
  omega

theorem modify_concat {α : Type} (f : α → α) (x : α) : ∀ r : List α, (r ++ [x]).modify r.length f = r ++ [f x]
  | [] => rfl
  | _ :: r => congrArg _ (modify_concat f x r)

theorem pending_padLast (ctx : Ctxt s) (msgBitCnt : ℕ) :
    (padLast ctx msgBitCnt).pending = ctx.pending.modify (ctx.bCnt - 1) (bitPad msgBitCnt) :=
  List.take_modify _ _ _ _

/-- A partial byte is padded in the buffer, and what is fed is the padded string. -/
theorem skeinUpdateBits_partial {ctx : SkeinCtx s} {key fed msg : List Byte} {hashBitLen msgBitCnt : ℕ}
    (h : Holds ctx key hashBitLen fed) (hlen : msgBitCnt ≤ 8 * msg.length) (hp : msgBitCnt % 8 ≠ 0) :
    ∃ ctx', skeinUpdateBits ctx msg msgBitCnt = some ctx' ∧ ∃ stream,
      FedBits ctx'.m (startNewType (SkeinApi.initExt s hashBitLen key).X BLK_TYPE_MSG) stream ∧
        bitsOf stream = (padBits (bitsOf fed ++ (bitsOf msg).take msgBitCnt)).1 := by
  set c := startNewType (SkeinApi.initExt s hashBitLen key).X BLK_TYPE_MSG with hc
  have hlt : msgBitCnt / 8 < msg.length := by omega
  set front := msg.take (msgBitCnt / 8) with hfront
  set x := msg[msgBitCnt / 8] with hx
  have hmsg : msg = front ++ x :: msg.drop (msgBitCnt / 8 + 1) := by
    rw [hfront, hx, ← List.drop_eq_getElem_cons hlt, List.take_append_drop]
  have hfrontlen : front.length = msgBitCnt / 8 := by rw [hfront, List.length_take]; omega
  have htake : msg.take (msgBitCnt / 8 + 1) = front ++ [x] := List.take_succ_eq_append_getElem hlt
  have hand : msgBitCnt &&& 7 = msgBitCnt % 8 := Nat.and_two_pow_sub_one_eq_mod msgBitCnt 3
  have hshift : msgBitCnt >>> 3 = msgBitCnt / 8 := Nat.shiftRight_eq_div_pow msgBitCnt 3
  -- the buffer ends in the partial byte
  obtain ⟨c', r, hconcat⟩ := Absorb.absorb_concat (w := s.bytes)
    (f := fun c blk => processBlock s c (wordsOf blk) (UInt64.ofNat s.bytes)) s.bytes_pos c (fed ++ front)
  have hfed : Fed (update ctx.m (msg.take (msgBitCnt / 8 + 1))) c ((fed ++ front) ++ [x]) := by
    rw [List.append_assoc, ← htake]
    exact fed_update h _
  have hboth := hfed.trans (hconcat x)
  have hchaining : (update ctx.m (msg.take (msgBitCnt / 8 + 1))).chaining = c' := congrArg Prod.fst hboth
  have hpending : (update ctx.m (msg.take (msgBitCnt / 8 + 1))).pending = r ++ [x] := congrArg Prod.snd hboth
  have hnew : absorb s c ((fed ++ front) ++ [bitPad msgBitCnt x]) = (c', r ++ [bitPad msgBitCnt x]) :=
    hconcat _
  refine ⟨⟨ctx.XSave, padLast (update ctx.m (msg.take (msgBitCnt / 8 + 1))) msgBitCnt⟩, ?_,
    (fed ++ front) ++ [bitPad msgBitCnt x], ⟨?_, ?_⟩, ?_⟩
  · unfold skeinUpdateBits
    rw [if_pos (Or.inl (mark_fed h)), hand, if_neg hp]
    show some (SkeinCtx.mk _ (padLast (update _ (msg.take (msgBitCnt >>> 3 + 1))) _)) = _
    rw [hshift]
    rfl
  · rw [hnew]
    show Chaining.mk _ _ _ = _
    rw [hchaining]
  · rw [hnew, pending_padLast, ← length_pending, hpending, List.length_append, List.length_singleton,
      Nat.add_sub_cancel, modify_concat]
  · have hbits : (bitsOf msg).take msgBitCnt = bitsOf front ++ (bitsOfByte x).take (msgBitCnt % 8) := by
      have hcut := take_bitsOf front (msg.drop (msgBitCnt / 8 + 1)) x (Nat.mod_lt msgBitCnt (show 0 < 8 by decide)).le
      rwa [← hmsg, hfrontlen, Nat.div_add_mod] at hcut
    rw [padBits, length_bits_mod fed hlen, if_neg hp, hbits]
    simp [bitsOf, bitsOfByte_bitPad hp]

/-- The context a string of bits was let into, and what it delivers. -/
structure FinalBits (ctx : SkeinCtx s) (key : List Byte) (hashBitLen : ℕ) (bits : List Bool) : Prop where
  digest : (skeinFinal ctx).2 = digestBits s key hashBitLen bits
  mark : bits.length % 8 ≠ 0 → ctx.m.chaining.T1 &&& FLAG_BIT_PAD ≠ 0

theorem final_chaining {ctx : Ctxt s} {c : Chaining} (h : (finalPad ctx).1.chaining = c) {hashBitLen : ℕ}
    (hlen : ctx.hashBitLen = hashBitLen) :
    (final ctx).2 = ((List.range (blockCount ((hashBitLen + 7) / 8) s)).flatMap
      (SkeinApi.outputBlock s c.X)).take ((hashBitLen + 7) / 8) := by
  rw [final, output_eq, hashBitLen_finalPad, hlen, h]

theorem finalBits_of_fed {ctx : SkeinCtx s} {key fed : List Byte} {hashBitLen : ℕ}
    (h : Holds ctx key hashBitLen fed) (hk : Keyed ctx key hashBitLen) : FinalBits ctx key hashBitLen (bitsOf fed) := by
  have hwhole : (bitsOf fed).length % 8 = 0 := by rw [length_bitsOf, Nat.mul_mod_right]
  refine ⟨?_, fun hne => absurd hwhole hne⟩
  have hpad : padBits (bitsOf fed) = (bitsOf fed, false) := if_pos hwhole
  have hblock : (finalPad ctx.m).1.chaining = finalBlockFlagged s 0
      (startNewType (SkeinApi.initExt s hashBitLen key).X BLK_TYPE_MSG) fed := by
    have hchaining : ctx.m.chaining = (absorb s _ fed).1 := congrArg Prod.fst h
    have hpending : ctx.m.pending = (absorb s _ fed).2 := congrArg Prod.snd h
    rw [finalPad_eq, hchaining, hpending]
    unfold finalBlockFlagged
    dsimp only
    rw [UInt64.or_zero]
  show (final ctx.m).2 = _
  rw [final_chaining hblock hk.len, digestBits, hpad, bytesOfBits_bitsOf]
  rfl

theorem finalBits_of_fedBits {ctx : SkeinCtx s} {key stream : List Byte} {hashBitLen : ℕ} {bits : List Bool}
    (h : FedBits ctx.m (startNewType (SkeinApi.initExt s hashBitLen key).X BLK_TYPE_MSG) stream)
    (hk : Keyed ctx key hashBitLen) (hbits : bitsOf stream = (padBits bits).1) (hcut : bits.length % 8 ≠ 0) :
    FinalBits ctx key hashBitLen bits := by
  have hpad : (padBits bits).2 = true := by rw [padBits, if_neg hcut]
  have hblock : (finalPad ctx.m).1.chaining = finalBlockFlagged s FLAG_BIT_PAD
      (startNewType (SkeinApi.initExt s hashBitLen key).X BLK_TYPE_MSG) stream := by
    rw [finalPad_eq, h.1, h.2]
    rfl
  refine ⟨?_, fun _ => ?_⟩
  · show (final ctx.m).2 = _
    rw [final_chaining hblock hk.len, digestBits, hpad, ← hbits, bytesOfBits_bitsOf]
    rfl
  · have hor : ∀ x : Word, (x ||| FLAG_BIT_PAD) &&& FLAG_BIT_PAD = FLAG_BIT_PAD := by
      intro x
      have hset : ∀ x : BitVec 64, (x ||| FLAG_BIT_PAD.toBitVec) &&& FLAG_BIT_PAD.toBitVec = FLAG_BIT_PAD.toBitVec := by
        intro x
        ext i hi
        rw [BitVec.getElem_and, BitVec.getElem_or]
        cases x[i] <;> simp
      exact UInt64.toBitVec_inj.mp (hset x.toBitVec)
    rw [h.1, hor]
    decide

/-- Whole bytes are let in as `skeinUpdate` lets them in. -/
theorem skeinUpdateBits_whole {ctx : SkeinCtx s} {key fed msg : List Byte} {hashBitLen msgBitCnt : ℕ}
    (h : Holds ctx key hashBitLen fed) (hlen : msgBitCnt ≤ 8 * msg.length) (hp : msgBitCnt % 8 = 0) :
    ∃ piece, skeinUpdateBits ctx msg msgBitCnt = some (skeinUpdate ctx piece) ∧
      (bitsOf msg).take msgBitCnt = bitsOf piece := by
  have hand : msgBitCnt &&& 7 = 0 := (Nat.and_two_pow_sub_one_eq_mod msgBitCnt 3).trans hp
  have hshift : msgBitCnt >>> 3 = msgBitCnt / 8 := Nat.shiftRight_eq_div_pow msgBitCnt 3
  have hcnt : (bitsOf (msg.take (msgBitCnt / 8))).length = msgBitCnt := by
    rw [length_bitsOf, List.length_take]
    omega
  have hsplit : bitsOf msg = bitsOf (msg.take (msgBitCnt / 8)) ++ bitsOf (msg.drop (msgBitCnt / 8)) := by
    rw [← bitsOf_append, List.take_append_drop]
  refine ⟨msg.take (msgBitCnt / 8), ?_, ?_⟩
  · unfold skeinUpdateBits
    rw [if_pos (Or.inl (mark_fed h)), if_pos hand, hshift]
  · rw [hsplit, List.take_left' hcnt]

theorem skeinUpdateBits_finalBits {ctx : SkeinCtx s} {key fed msg : List Byte} {hashBitLen msgBitCnt : ℕ}
    (h : Holds ctx key hashBitLen fed) (hk : Keyed ctx key hashBitLen) (hlen : msgBitCnt ≤ 8 * msg.length) :
    ∃ ctx', skeinUpdateBits ctx msg msgBitCnt = some ctx' ∧
      FinalBits ctx' key hashBitLen (bitsOf fed ++ (bitsOf msg).take msgBitCnt) := by
  by_cases hp : msgBitCnt % 8 = 0
  · obtain ⟨piece, hcall, hbits⟩ := skeinUpdateBits_whole h hlen hp
    rw [hbits, ← bitsOf_append]
    exact ⟨_, hcall, finalBits_of_fed (h.skeinUpdate piece) (hk.skeinUpdate piece)⟩
  · obtain ⟨ctx', hcall, stream, hstream, hbits⟩ := skeinUpdateBits_partial h hlen hp
    rw [← length_bits_mod fed hlen] at hp
    exact ⟨ctx', hcall, finalBits_of_fedBits hstream (hk.skeinUpdateBits hcall) hbits hp⟩

/-- **The digest is that of the string of bits**, and once a byte was cut no
more bits are let in. -/
theorem skeinUpdateBits_final (ctx : SkeinCtx s) (key : List Byte) {hashBitLen : ℕ} (hne : hashBitLen ≠ 0)
    (pieces : List (List Byte)) (msg : List Byte) {msgBitCnt : ℕ} (hlen : msgBitCnt ≤ 8 * msg.length) :
    ∃ ctx', skeinUpdateBits (pieces.foldl skeinUpdate (skeinMacInit ctx key hashBitLen)) msg msgBitCnt = some ctx' ∧
      (skeinFinal ctx').2 = digestBits s key hashBitLen (bitsOf pieces.flatten ++ (bitsOf msg).take msgBitCnt) ∧
      (msgBitCnt % 8 ≠ 0 → ∀ more moreBitCnt, moreBitCnt ≠ 0 → skeinUpdateBits ctx' more moreBitCnt = none) := by
  rw [skeinMacInit, if_neg hne]
  have hkeyed := (keyed_init ctx hashBitLen key).pieces pieces
  have hfed := (holds_init ctx hashBitLen key).pieces pieces
  obtain ⟨ctx', hcall, hfinal⟩ := skeinUpdateBits_finalBits hfed hkeyed hlen
  refine ⟨ctx', hcall, hfinal.digest, fun hp more moreBitCnt hmore => ?_⟩
  have hmark := hfinal.mark ((length_bits_mod _ hlen).trans_ne hp)
  rw [skeinUpdateBits, if_neg]
  rintro (h | h)
  · exact hmark h
  · exact hmore h

theorem skeinUpdateBits_final_sample :
    ∃ ctx', skeinUpdateBits ([[1]].foldl skeinUpdate (skeinMacInit (skeinCtxPrepare .Skein256) [5] 24)) [2, 255] 11 =
        some ctx' ∧
      (skeinFinal ctx').2 = digestBits .Skein256 [5] 24 (bitsOf [[1]].flatten ++ (bitsOf [2, 255]).take 11) ∧
      (11 % 8 ≠ 0 → ∀ more moreBitCnt, moreBitCnt ≠ 0 → skeinUpdateBits ctx' more moreBitCnt = none) :=
  skeinUpdateBits_final (skeinCtxPrepare .Skein256) [5] (by decide) [[1]] [2, 255] (by decide)

end SkeinStream

end Threefizer
