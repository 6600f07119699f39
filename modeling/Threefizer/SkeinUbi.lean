/-
# Skein as it is defined

A message is hashed by unique block iteration: it is cut into blocks, the last
padded with zeros, and each block is encrypted under the chaining value and a
tweak of 128 bits, and mixed into the result. The tweak of a block tells its
type, how many bytes of the message there are up to its end, and whether it is
the first or the last. Skein is four such iterations, over the key, the
config string, the message and the counter of the output.

The source keeps the tweak in two words that it updates from block to block,
32 bits at a time, and sets and clears the flags on the way. As long as no
message has 2^64 bytes its tweaks are those of the definition
(`finalBlock_eq_ubi`), so what a context delivers is Skein
(`skeinFinal_is_skein`).
-/
import Threefizer.SkeinStream

namespace Threefizer

open Words

namespace SkeinUbi

open Skein3fish (Chaining startNewType processBlock processBlocks finalBlock addCount low32 threefishSetKey
  threefishEncryptBlockWords FLAG_FIRST FLAG_FINAL BLK_TYPE_KEY BLK_TYPE_CFG BLK_TYPE_MSG BLK_TYPE_OUT SCHEMA_VER)

/-! ### The definition -/

/-- What an iteration is over. -/
inductive BlockType
  | key | cfg | msg | out
  deriving DecidableEq, Repr

def BlockType.number : BlockType → ℕ
  | .key => 0
  | .cfg => 4
  | .msg => 48
  | .out => 63

/-- A tweak: 96 bits of position, the type and two flags. -/
structure Tweak where
  position : ℕ
  type : BlockType
  first : Bool
  final : Bool
  deriving DecidableEq, Repr

/-- A tweak as a number of 128 bits. -/
def Tweak.value (t : Tweak) : ℕ :=
  t.position + t.type.number * 2 ^ 120 + (if t.first then 2 ^ 126 else 0) + if t.final then 2 ^ 127 else 0

/-- `E(chain, tweak, block) \xor block`. -/
def compress (s : SkeinSize) (chain : List Word) (t : Tweak) (block : List Word) : List Word :=
  let k := threefishSetKey s chain (UInt64.ofNat (t.value % 2 ^ 64)) (UInt64.ofNat (t.value / 2 ^ 64))
  xorBlock (threefishEncryptBlockWords k block) block

/-- How many blocks a message has; an empty one has one. -/
def numBlocks (s : SkeinSize) (M : List Byte) : ℕ := max 1 (blockCount M.length s)

/-- The block number `i` of a message, padded with zeros. -/
def messageBlock (s : SkeinSize) (M : List Byte) (i : ℕ) : List Byte :=
  let B := (M.drop (i * s.bytes)).take s.bytes
  B ++ List.replicate (s.bytes - B.length) 0

/-- The tweak of the block number `i`. -/
def blockTweak (s : SkeinSize) (M : List Byte) (type : BlockType) (i : ℕ) : Tweak where
  position := min M.length ((i + 1) * s.bytes)
  type := type
  first := i = 0
  final := i + 1 = numBlocks s M

/-- Unique block iteration from the chaining value `G`. -/
def ubi (s : SkeinSize) (G : List Word) (M : List Byte) (type : BlockType) : List Word :=
  (List.range (numBlocks s M)).foldl
    (fun H i => compress s H (blockTweak s M type i) (wordsOf (messageBlock s M i))) G

/-- The config string: "SHA3", version 1, and the length of the digest in bits. -/
def configString (hashBitLen : ℕ) : List Byte :=
  [0x53, 0x48, 0x41, 0x33, 1, 0, 0, 0] ++ wordBytes (UInt64.ofNat hashBitLen) ++ List.replicate 16 0

/-- Skein with a key, which may be empty, and a digest of any length. -/
def skein (s : SkeinSize) (key : List Byte) (hashBitLen : ℕ) (M : List Byte) : List Byte :=
  let zero := List.replicate s.words 0
  let K := if key = [] then zero else ubi s zero key .key
  let G₀ := ubi s K (configString hashBitLen) .cfg
  let G₁ := ubi s G₀ M .msg
  let byteCnt := (hashBitLen + 7) / 8
  ((List.range (blockCount byteCnt s)).flatMap fun i =>
    bytesOf (ubi s G₁ (wordBytes (UInt64.ofNat i)) .out)).take byteCnt

/-! ### The words of a tweak -/

/-- The type as it stands in the upper word. -/
def BlockType.word : BlockType → Word
  | .key => BLK_TYPE_KEY
  | .cfg => BLK_TYPE_CFG
  | .msg => BLK_TYPE_MSG
  | .out => BLK_TYPE_OUT

/-- The upper word with its flags. -/
def upper (type : BlockType) (first final : Bool) : Word :=
  type.word ||| (if first then FLAG_FIRST else 0) ||| (if final then FLAG_FINAL else 0)

theorem upper_eq (type : BlockType) (first final : Bool) : upper type first final =
    UInt64.ofNat (type.number * 2 ^ 56 + (if first then 2 ^ 62 else 0) + if final then 2 ^ 63 else 0) := by
  cases type <;> cases first <;> cases final <;> decide

theorem upper_start (type : BlockType) : FLAG_FIRST ||| type.word = upper type true false := by
  cases type <;> decide

theorem upper_final (type : BlockType) (first : Bool) :
    upper type first false ||| FLAG_FINAL = upper type first true := by
  cases type <;> cases first <;> decide

theorem upper_clear (type : BlockType) (first final : Bool) :
    upper type first final &&& ~~~FLAG_FIRST = upper type false final := by
  cases type <;> cases first <;> cases final <;> decide

theorem low32_upper (type : BlockType) (first final : Bool) : low32 (upper type first final) = 0 := by
  cases type <;> cases first <;> cases final <;> decide

/-- A position below 2^64 fills the lower word, and the rest the upper one. -/
theorem value_words {t : Tweak} (h : t.position < 2 ^ 64) :
    UInt64.ofNat (t.value % 2 ^ 64) = UInt64.ofNat t.position ∧
      UInt64.ofNat (t.value / 2 ^ 64) = upper t.type t.first t.final := by
  have hsplit : t.value = t.position + 2 ^ 64 *
      (t.type.number * 2 ^ 56 + (if t.first then 2 ^ 62 else 0) + if t.final then 2 ^ 63 else 0) := by
    unfold Tweak.value
    split <;> split <;> ring
  rw [hsplit, Nat.add_mul_mod_self_left, Nat.mod_eq_of_lt h, Nat.add_mul_div_left _ _ (by decide),
    Nat.div_eq_of_lt h, Nat.zero_add, upper_eq]
  exact ⟨rfl, rfl⟩

theorem toNat_low32 (x : Word) : (low32 x).toNat = x.toNat % 2 ^ 32 := by
  show (x &&& 0xffffffff).toNat = _
  rw [UInt64.toNat_and]
  exact Nat.and_two_pow_sub_one_eq_mod x.toNat 32

/-- As long as the count fits the lower word, it is a sum. -/
theorem addCount_eq {T0 T1 n : Word} (h : T0.toNat + n.toNat < 2 ^ 64) (hn : n.toNat < 2 ^ 32)
    (hT1 : low32 T1 = 0) : addCount T0 T1 n = (T0 + n, T1) := by
  have h0 := toNat_low32 T0
  have hT0 := T0.toNat_lt
  have hw0 : (n + low32 T0).toNat = n.toNat + T0.toNat % 2 ^ 32 := by
    rw [UInt64.toNat_add, h0, Nat.mod_eq_of_lt (by omega)]
  have hshift : ∀ x : Word, (x >>> 32).toNat = x.toNat / 2 ^ 32 := by
    intro x
    rw [UInt64.toNat_shiftRight, Nat.shiftRight_eq_div_pow]
    rfl
  have hw1 : ((n + low32 T0) >>> 32 + low32 (T0 >>> 32)).toNat =
      (n.toNat + T0.toNat % 2 ^ 32) / 2 ^ 32 + T0.toNat / 2 ^ 32 := by
    rw [UInt64.toNat_add, toNat_low32, hshift, hshift, hw0]
    omega
  have hw2 : ((n + low32 T0) >>> 32 + low32 (T0 >>> 32)) >>> 32 = 0 := by
    apply UInt64.toNat_inj.mp
    rw [hshift, hw1]
    show _ = 0
    omega
  have hor : low32 (n + low32 T0) |||
      (low32 ((n + low32 T0) >>> 32 + low32 (T0 >>> 32)) <<< 32) = T0 + n := by
    apply UInt64.toNat_inj.mp
    have hleft : (low32 ((n + low32 T0) >>> 32 + low32 (T0 >>> 32)) <<< 32).toNat =
        ((n.toNat + T0.toNat % 2 ^ 32) / 2 ^ 32 + T0.toNat / 2 ^ 32) <<< 32 := by
      rw [UInt64.toNat_shiftLeft, toNat_low32, hw1, Nat.shiftLeft_eq, Nat.shiftLeft_eq]
      show _ * 2 ^ 32 % _ = _
      omega
    rw [UInt64.toNat_or, hleft, toNat_low32, hw0, Nat.or_comm,
      ← Nat.shiftLeft_add_eq_or_of_lt (Nat.mod_lt _ (by decide)), Nat.shiftLeft_eq, UInt64.toNat_add]
    omega
  unfold addCount
  dsimp only
  rw [hw2, hT1, hor]
  refine Prod.ext rfl ?_
  show T1 ||| low32 (0 + 0) = T1
  rw [show low32 (0 + 0) = 0 from rfl, UInt64.or_zero]

/-! ### One block -/

variable {s : SkeinSize}

/-- One block encrypted by the source is one of the definition. -/
theorem processBlock_eq {X : List Word} {position n : ℕ} (type : BlockType) (first final : Bool) (w : List Word)
    (h : position + n < 2 ^ 64) (hn : n < 2 ^ 32) :
    processBlock s ⟨X, UInt64.ofNat position, upper type first final⟩ w (UInt64.ofNat n) =
      ⟨compress s X ⟨position + n, type, first, final⟩ w, UInt64.ofNat (position + n), upper type false final⟩ := by
  have hpos : (UInt64.ofNat position).toNat = position := Nat.mod_eq_of_lt (by omega)
  have hcnt : (UInt64.ofNat n).toNat = n := Nat.mod_eq_of_lt (by omega)
  have hadd : addCount (UInt64.ofNat position) (upper type first final) (UInt64.ofNat n) =
      (UInt64.ofNat (position + n), upper type first final) := by
    rw [addCount_eq (by rwa [hpos, hcnt]) (by rwa [hcnt]) (low32_upper _ _ _), UInt64.ofNat_add]
  have hvalue := value_words (t := ⟨position + n, type, first, final⟩) h
  unfold processBlock compress
  dsimp only
  rw [hadd, hvalue.1, hvalue.2]
  show Chaining.mk _ _ (upper type first final &&& ~~~FLAG_FIRST) = _
  rw [upper_clear]

/-! ### A message -/

/-- The blocks of a message but the last, and the last. -/
theorem numBlocks_eq (s : SkeinSize) (M : List Byte) : numBlocks s M = (M.length - 1) / s.bytes + 1 := by
  unfold numBlocks blockCount
  rcases s.bytes_cases with h | h | h <;> rw [h] <;> omega

/-- The chaining value after the first `n` blocks. -/
def chain (s : SkeinSize) (G : List Word) (M : List Byte) (type : BlockType) (n : ℕ) : List Word :=
  (List.range n).foldl (fun H i => compress s H (blockTweak s M type i) (wordsOf (messageBlock s M i))) G

theorem chain_succ (G : List Word) (M : List Byte) (type : BlockType) (n : ℕ) : chain s G M type (n + 1) =
    compress s (chain s G M type n) (blockTweak s M type n) (wordsOf (messageBlock s M n)) := by
  rw [chain, List.range_succ, List.foldl_append]
  rfl

/-- **The state of the source while it goes through a message**: the lower
tweak word counts the bytes, and the upper one is marked as first until a block
was processed. -/
theorem run_blocks {M : List Byte} (hM : M.length < 2 ^ 64) (G : List Word) (type : BlockType) :
    ∀ n, n + 1 ≤ numBlocks s M → processBlocks s n (startNewType G type.word) M =
      (⟨chain s G M type n, UInt64.ofNat (n * s.bytes), upper type (n = 0) false⟩, M.drop (n * s.bytes)) := by
  intro n
  rw [SkeinStream.processBlocks_eq]
  induction n with
  | zero =>
    intro _
    rw [Nat.zero_mul, List.drop_zero]
    show (Chaining.mk G 0 (FLAG_FIRST ||| type.word), M) = _
    rw [upper_start]
    rfl
  | succ n ih =>
    intro hn
    have hlt : (n + 1) * s.bytes < M.length := by
      rw [numBlocks_eq] at hn
      have hle : (n + 1) * s.bytes ≤ (M.length - 1) / s.bytes * s.bytes :=
        Nat.mul_le_mul_right _ (Nat.le_of_succ_le_succ hn)
      have hdiv := Nat.div_mul_le_self (M.length - 1) s.bytes
      have hpos : 0 < (n + 1) * s.bytes := Nat.mul_pos (Nat.succ_pos n) s.bytes_pos
      omega
    have hmul : (n + 1) * s.bytes = n * s.bytes + s.bytes := Nat.succ_mul n s.bytes
    have hwidth : s.bytes < 2 ^ 32 := by rcases s.bytes_cases with h | h | h <;> omega
    have hblock : messageBlock s M n = (M.drop (n * s.bytes)).take s.bytes := by
      have hlen : ((M.drop (n * s.bytes)).take s.bytes).length = s.bytes := by
        rw [List.length_take, List.length_drop]
        omega
      rw [messageBlock, hlen, Nat.sub_self, List.replicate_zero, List.append_nil]
    have htweak : blockTweak s M type n = ⟨n * s.bytes + s.bytes, type, n = 0, false⟩ := by
      have hlast : ¬ n + 1 = numBlocks s M := by omega
      rw [blockTweak, Nat.min_eq_right hlt.le, hmul]
      simp [hlast]
    rw [Absorb.run_add, ih (by omega)]
    show (processBlock s _ (wordsOf ((M.drop (n * s.bytes)).take s.bytes)) _,
      (M.drop (n * s.bytes)).drop s.bytes) = _
    rw [processBlock_eq type _ _ _ (by omega) hwidth, List.drop_drop, chain_succ, htweak, hblock, hmul]
    simp

/-- **What the source makes of a message is its iteration.** -/
theorem finalBlock_eq_ubi {M : List Byte} (hM : M.length < 2 ^ 64) (G : List Word) (type : BlockType) :
    (finalBlock s (startNewType G type.word) M).X = ubi s G M type := by
  have hcount := numBlocks_eq s M
  have hrun := run_blocks (s := s) hM G type ((M.length - 1) / s.bytes) (by omega)
  have hubi : ubi s G M type = chain s G M type ((M.length - 1) / s.bytes + 1) := by
    rw [ubi, hcount]
    rfl
  have hle : M.length ≤ ((M.length - 1) / s.bytes + 1) * s.bytes := by
    rcases s.bytes_cases with h | h | h <;> rw [h] <;> omega
  have hge : (M.length - 1) / s.bytes * s.bytes ≤ M.length :=
    (Nat.div_mul_le_self _ _).trans (Nat.sub_le _ _)
  have hmul : ((M.length - 1) / s.bytes + 1) * s.bytes = (M.length - 1) / s.bytes * s.bytes + s.bytes :=
    Nat.succ_mul _ _
  have hwidth : s.bytes < 2 ^ 32 := by rcases s.bytes_cases with h | h | h <;> omega
  generalize hn : (M.length - 1) / s.bytes = n at *
  have hrest : (M.drop (n * s.bytes)).length = M.length - n * s.bytes := List.length_drop
  have hsum : n * s.bytes + (M.drop (n * s.bytes)).length = M.length := by omega
  have hblock : messageBlock s M n =
      M.drop (n * s.bytes) ++ List.replicate (s.bytes - (M.drop (n * s.bytes)).length) 0 := by
    rw [messageBlock, List.take_of_length_le (by omega)]
  have htweak : blockTweak s M type n = ⟨M.length, type, n = 0, true⟩ := by
    rw [blockTweak, Nat.min_eq_left hle, hcount]
    simp
  unfold finalBlock
  dsimp only
  rw [hn, hrun]
  dsimp only
  rw [upper_final, processBlock_eq type _ _ _ (by omega) (by omega), hubi, chain_succ, htweak, hblock, hsum]

/-- A message of at most one block is one block. -/
theorem ubi_of_le {M : List Byte} (hM : M.length ≤ s.bytes) (G : List Word) (type : BlockType) :
    ubi s G M type =
      (processBlock s (startNewType G (type.word ||| FLAG_FINAL))
        (wordsOf (M ++ List.replicate (s.bytes - M.length) 0)) (UInt64.ofNat M.length)).X := by
  have hlen : M.length < 2 ^ 64 := by rcases s.bytes_cases with h | h | h <;> omega
  have hzero : (M.length - 1) / s.bytes = 0 := Nat.div_eq_of_lt (by have := s.bytes_pos; omega)
  rw [← finalBlock_eq_ubi hlen, finalBlock, hzero]
  show (processBlock s ⟨G, 0, (FLAG_FIRST ||| type.word) ||| FLAG_FINAL⟩ _ _).X = _
  rw [UInt64.or_assoc]
  rfl

/-! ### Skein -/

theorem wordsOf_configString (s : SkeinSize) (hashBitLen : ℕ) :
    wordsOf (configString hashBitLen ++ List.replicate (s.bytes - (configString hashBitLen).length) 0) =
      [SCHEMA_VER, UInt64.ofNat hashBitLen, 0] ++ List.replicate (s.words - 3) 0 := by
  have hlen : (configString hashBitLen).length = 32 := by simp [configString]
  have hschema : [0x53, 0x48, 0x41, 0x33, 1, 0, 0, 0] = wordBytes SCHEMA_VER := by decide
  have hzeros : List.replicate (16 + (s.bytes - 32)) (0 : Byte) = bytesOf (List.replicate (s.words - 2) 0) := by
    rw [SkeinStream.bytesOf_replicate_zero]
    cases s <;> rfl
  have hwords : List.replicate (s.words - 2) (0 : Word) = 0 :: List.replicate (s.words - 3) 0 := by
    cases s <;> rfl
  rw [hlen, configString, hschema, List.append_assoc, List.append_assoc, ← List.replicate_add, hzeros,
    wordsOf_append_eight (length_wordBytes _), wordsOf_append_eight (length_wordBytes _), wordsOf_bytesOf,
    wordOf_wordBytes, wordOf_wordBytes, hwords]
  rfl

/-- The config block of the source is the iteration over the config string. -/
theorem initExt_eq {key : List Byte} (hkey : key.length < 2 ^ 64) (hashBitLen : ℕ) :
    (SkeinApi.initExt s hashBitLen key).X =
      ubi s (if key = [] then List.replicate s.words 0 else ubi s (List.replicate s.words 0) key .key)
        (configString hashBitLen) .cfg := by
  have hlen : (configString hashBitLen).length = 32 := by simp [configString]
  have hchaining : SkeinApi.keyChaining s key =
      if key = [] then List.replicate s.words 0 else ubi s (List.replicate s.words 0) key .key := by
    rw [SkeinApi.keyChaining, ← finalBlock_eq_ubi hkey]
    rfl
  rw [ubi_of_le (by rw [hlen]; rcases s.bytes_cases with h | h | h <;> omega), wordsOf_configString, hlen,
    ← hchaining]
  rfl

/-- A block of the output is the iteration over its number. -/
theorem outputBlock_eq (X : List Word) (i : ℕ) :
    SkeinApi.outputBlock s X i = bytesOf (ubi s X (wordBytes (UInt64.ofNat i)) .out) := by
  have hlen : (wordBytes (UInt64.ofNat i)).length = 8 := length_wordBytes _
  rw [ubi_of_le (by rw [hlen]; rcases s.bytes_cases with h | h | h <;> omega), hlen, SkeinStream.wordsOf_counter]
  rfl

theorem digest_eq {key M : List Byte} (hkey : key.length < 2 ^ 64) (hM : M.length < 2 ^ 64) (hashBitLen : ℕ) :
    SkeinApi.skeinFinal (SkeinApi.skeinUpdate (SkeinApi.skeinMacInit s key hashBitLen) M) =
      skein s key hashBitLen M := by
  have hmsg : finalBlock s (startNewType (SkeinApi.initExt s hashBitLen key).X BLK_TYPE_MSG) M =
      finalBlock s (startNewType (SkeinApi.initExt s hashBitLen key).X BlockType.msg.word) M := rfl
  have hout : SkeinApi.outputBlock s = fun X i => bytesOf (ubi s X (wordBytes (UInt64.ofNat i)) .out) := by
    funext X i
    exact outputBlock_eq X i
  show ((List.range _).flatMap (SkeinApi.outputBlock s (finalBlock s (startNewType
    (SkeinApi.initExt s hashBitLen key).X BLK_TYPE_MSG) ([] ++ M)).X)).take _ = _
  rw [List.nil_append, hmsg, finalBlock_eq_ubi hM, initExt_eq hkey, hout]
  rfl

/-- **What a context delivers is Skein**: with a key or without one, whatever
pieces it is fed, and whatever it was used for before. -/
theorem skeinFinal_is_skein (ctx : SkeinStream.SkeinCtx s) (key : List Byte) (hkey : key.length < 2 ^ 64)
    {hashBitLen : ℕ} (hne : hashBitLen ≠ 0) (pieces : List (List Byte)) (hM : pieces.flatten.length < 2 ^ 64) :
    (SkeinStream.skeinFinal (pieces.foldl SkeinStream.skeinUpdate
        (SkeinStream.skeinMacInit ctx key hashBitLen))).2 = skein s key hashBitLen pieces.flatten ∧
      (SkeinStream.skeinFinal (pieces.foldl SkeinStream.skeinUpdate
        (SkeinStream.skeinInit ctx hashBitLen))).2 = skein s [] hashBitLen pieces.flatten := by
  have hinit : ∀ key : List Byte, key.length < 2 ^ 64 → (SkeinStream.skeinFinal
      (pieces.foldl SkeinStream.skeinUpdate
        ⟨(SkeinStream.initExt ctx.m hashBitLen SkeinStream.TREE_INFO_SEQUENTIAL key).2,
          (SkeinStream.initExt ctx.m hashBitLen SkeinStream.TREE_INFO_SEQUENTIAL key).1⟩)).2 =
      skein s key hashBitLen pieces.flatten := fun key hkey =>
    (((SkeinStream.holds_init ctx hashBitLen key).pieces pieces).digest
      ((SkeinStream.keyed_init ctx hashBitLen key).pieces pieces)).trans (digest_eq hkey hM hashBitLen)
  refine ⟨?_, hinit [] (by decide)⟩
  rw [SkeinStream.skeinMacInit, if_neg hne]
  exact hinit key hkey

theorem skeinFinal_is_skein_sample :
    (SkeinStream.skeinFinal ([[1], [2, 3]].foldl SkeinStream.skeinUpdate
      (SkeinStream.skeinMacInit (SkeinStream.skeinCtxPrepare .Skein256) [5] 24))).2 = [177, 125, 70] :=
  (skeinFinal_is_skein (SkeinStream.skeinCtxPrepare .Skein256) [5] (by decide) (by decide) [[1], [2, 3]]
    (by decide)).1.trans (by decide +kernel)

end SkeinUbi

end Threefizer
