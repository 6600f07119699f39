/-
# Threefish and the Skein MAC (`skein3fish`)

The source writes the rounds of Threefish out, one function for each state
size. Here a round is one function of the tables of a size: every fourth round
starts with the addition of a subkey, then neighbouring words are mixed and
the words permuted. Every part of a round can be undone, so decryption undoes
encryption under every key (`threefish_inverts`).

Skein processes a run of bytes in blocks, each encrypted under the state and
XORed to the result. `Skein_256_Update` and its siblings keep the bytes of a
block that is not yet processed; here a context keeps all bytes it was fed,
and `skeinFinal` processes them.
-/
import Threefizer.CbcMode

namespace Threefizer

open Words

namespace Skein3fish

/-! ### Rotations -/

/-- `(x << r) | (x >> (64 - r))`. -/
def rotl (x r : Word) : Word := (x <<< r) ||| (x >>> (64 - r))

/-- `(x >> r) | (x << (64 - r))`. -/
def rotr (x r : Word) : Word := (x >>> r) ||| (x <<< (64 - r))

theorem toNat_sub_mod (r : Word) : (64 - r).toNat % 64 = (64 - r.toNat % 64) % 64 := by
  have := r.toNat_lt
  rw [UInt64.toNat_sub]
  simp
  omega

theorem getLsbD_rotl (x r : Word) {i : ℕ} (hi : i < 64) :
    (rotl x r).toBitVec.getLsbD i = x.toBitVec.getLsbD ((i + (64 - r.toNat % 64)) % 64) := by
  have h1 : (r.toBitVec % 64).toNat = r.toNat % 64 := rfl
  have h2 : ((64 - r).toBitVec % 64).toNat = (64 - r.toNat % 64) % 64 := toNat_sub_mod r
  rw [rotl, UInt64.toBitVec_or, UInt64.toBitVec_shiftLeft, UInt64.toBitVec_shiftRight, BitVec.getLsbD_or,
    BitVec.shiftLeft_eq', BitVec.ushiftRight_eq', h1, h2, BitVec.getLsbD_shiftLeft,
    BitVec.getLsbD_ushiftRight]
  by_cases h : i < r.toNat % 64
  · have hidx : (i + (64 - r.toNat % 64)) % 64 = (64 - r.toNat % 64) % 64 + i := by omega
    simp [h, hidx]
  · have hidx : (i + (64 - r.toNat % 64)) % 64 = i - r.toNat % 64 := by omega
    rw [hidx]
    simp only [hi, h, decide_true, decide_false, Bool.not_false, Bool.true_and]
    by_cases h0 : r.toNat % 64 = 0
    · simp [h0]
    · have hout : x.toBitVec.getLsbD ((64 - r.toNat % 64) % 64 + i) = false :=
        BitVec.getLsbD_of_ge _ _ (by omega)
      simp [hout]

theorem rotr_eq (x r : Word) : rotr x r = rotl x (64 - r) := by
  have h : (64 : Word) - (64 - r) = r := by grind
  rw [rotr, rotl, h, UInt64.or_comm]

/-- A rotation is undone by the one in the other direction. -/
theorem rotr_rotl (x r : Word) : rotr (rotl x r) r = x := by
  apply UInt64.toBitVec_inj.mp
  apply BitVec.eq_of_getLsbD_eq
  intro i hi
  rw [rotr_eq, getLsbD_rotl _ _ hi, getLsbD_rotl _ _ (Nat.mod_lt _ (by decide)), toNat_sub_mod]
  congr 1
  omega

/-! ### Threefish -/

/-- What the three sizes of Threefish differ in: the number of words, the
number of rounds, the rotation constants of eight rounds and where a round
takes its words from. -/
structure Tables where
  words : ℕ
  rounds : ℕ
  rotations : List (List Word)
  permutation : List ℕ

def tables : SkeinSize → Tables
  | .Skein256 =>
    ⟨4, 72, [[14, 16], [52, 57], [23, 40], [5, 37], [25, 33], [46, 12], [58, 22], [32, 32]],
      [0, 3, 2, 1]⟩
  | .Skein512 =>
    ⟨8, 72, [[46, 36, 19, 37], [33, 27, 14, 42], [17, 49, 36, 39], [44, 9, 54, 56],
      [39, 30, 34, 24], [13, 50, 10, 17], [25, 29, 39, 43], [8, 35, 56, 22]],
      [2, 1, 4, 7, 6, 5, 0, 3]⟩
  | .Skein1024 =>
    ⟨16, 80, [[24, 13, 8, 47, 8, 17, 22, 37], [38, 19, 10, 55, 49, 18, 23, 52],
      [33, 4, 51, 13, 34, 41, 59, 17], [5, 20, 48, 41, 47, 28, 16, 25],
      [41, 9, 37, 31, 12, 47, 44, 30], [16, 34, 56, 51, 4, 53, 42, 41],
      [31, 44, 47, 46, 19, 42, 44, 25], [9, 48, 35, 52, 23, 31, 37, 20]],
      [0, 9, 2, 13, 6, 11, 4, 15, 10, 7, 12, 3, 14, 5, 8, 1]⟩

/-- Where the inverse of a round takes its words from. -/
def Tables.inverse (T : Tables) : List ℕ := (List.range T.words).map fun i => T.permutation.idxOf i

/-- Neighbouring words: `x0 += x1; x1 = rotl(x1) ^ x0`. -/
def mix : List Word → List Word → List Word
  | r :: rs, x0 :: x1 :: xs => (x0 + x1) :: (rotl x1 r ^^^ (x0 + x1)) :: mix rs xs
  | _, xs => xs

/-- `x1 = rotr(x1 ^ x0); x0 -= x1`. -/
def unmix : List Word → List Word → List Word
  | r :: rs, x0 :: x1 :: xs => (x0 - rotr (x1 ^^^ x0) r) :: rotr (x1 ^^^ x0) r :: unmix rs xs
  | _, xs => xs

/-- The words at the places `p`. -/
def permute (p : List ℕ) (xs : List Word) : List Word := p.map fun i => xs.getD i 0

/-- The subkey `s`: words of the key, the tweak in two places and `s` in the last. -/
def subkey (n : ℕ) (key tweak : List Word) (s : ℕ) : List Word :=
  (List.range n).map fun i =>
    let k := key.getD ((s + i) % (n + 1)) 0
    if i + 3 = n then k + tweak.getD (s % 3) 0
    else if i + 2 = n then k + tweak.getD ((s + 1) % 3) 0
    else if i + 1 = n then k + UInt64.ofNat s
    else k

section Cipher

variable (T : Tables) (key tweak : List Word)

def encryptRound (d : ℕ) (xs : List Word) : List Word :=
  let ys := if d % 4 = 0 then List.zipWith (· + ·) xs (subkey T.words key tweak (d / 4)) else xs
  permute T.permutation (mix (T.rotations.getD (d % 8) []) ys)

def decryptRound (d : ℕ) (xs : List Word) : List Word :=
  let ys := unmix (T.rotations.getD (d % 8) []) (permute T.inverse xs)
  if d % 4 = 0 then List.zipWith (· - ·) ys (subkey T.words key tweak (d / 4)) else ys

def encryptRounds : ℕ → List Word → List Word
  | 0, xs => xs
  | d + 1, xs => encryptRound T key tweak d (encryptRounds d xs)

def decryptRounds : ℕ → List Word → List Word
  | 0, xs => xs
  | d + 1, xs => decryptRounds d (decryptRound T key tweak d xs)

def encryptBlock (xs : List Word) : List Word :=
  List.zipWith (· + ·) (encryptRounds T key tweak T.rounds xs)
    (subkey T.words key tweak (T.rounds / 4))

def decryptBlock (xs : List Word) : List Word :=
  decryptRounds T key tweak T.rounds
    (List.zipWith (· - ·) xs (subkey T.words key tweak (T.rounds / 4)))

end Cipher

/-- `threefishSetKey`: the key gets a parity word, the tweak the XOR of its words. -/
def threefishSetKey (s : SkeinSize) (keyData : List Word) (t0 t1 : Word) : ThreefishKey where
  stateSize := s
  key := keyData.take s.words ++ [(keyData.take s.words).foldl (· ^^^ ·) 0x1BD11BDAA9FC1A22]
  tweak := [t0, t1, t0 ^^^ t1]

def threefishEncryptBlockWords (k : ThreefishKey) (b : List Word) : List Word :=
  encryptBlock (tables k.stateSize) k.key k.tweak b

def threefishDecryptBlockWords (k : ThreefishKey) (b : List Word) : List Word :=
  decryptBlock (tables k.stateSize) k.key k.tweak b

/-! ### Decryption undoes encryption -/

@[simp] theorem length_mix : ∀ (rs xs : List Word), (mix rs xs).length = xs.length
  | [], _ => rfl
  | _ :: _, [] => rfl
  | _ :: _, [_] => rfl
  | _ :: rs, _ :: _ :: xs => by simp [mix, length_mix rs xs]

@[simp] theorem length_unmix : ∀ (rs xs : List Word), (unmix rs xs).length = xs.length
  | [], _ => rfl
  | _ :: _, [] => rfl
  | _ :: _, [_] => rfl
  | _ :: rs, _ :: _ :: xs => by simp [unmix, length_unmix rs xs]

theorem unmix_mix : ∀ (rs xs : List Word), unmix rs (mix rs xs) = xs
  | [], _ => rfl
  | _ :: _, [] => rfl
  | _ :: _, [_] => rfl
  | r :: rs, x0 :: x1 :: xs => by
    have hx : rotr (rotl x1 r ^^^ (x0 + x1) ^^^ (x0 + x1)) r = x1 := by
      rw [UInt64.xor_assoc, UInt64.xor_self, UInt64.xor_zero, rotr_rotl]
    have h0 : x0 + x1 - x1 = x0 := by grind
    rw [mix, unmix, hx, h0, unmix_mix rs xs]

@[simp] theorem length_permute (p : List ℕ) (xs : List Word) : (permute p xs).length = p.length := by
  simp [permute]

@[simp] theorem length_subkey (n : ℕ) (key tweak : List Word) (s : ℕ) :
    (subkey n key tweak s).length = n := by simp [subkey]

/-- Subtracting what was added. -/
theorem zipWith_sub_add : ∀ {xs ks : List Word}, xs.length = ks.length →
    List.zipWith (· - ·) (List.zipWith (· + ·) xs ks) ks = xs
  | [], [], _ => rfl
  | x :: xs, k :: ks, h => by
    have h0 : x + k - k = x := by grind
    rw [List.zipWith_cons_cons, List.zipWith_cons_cons, h0, zipWith_sub_add (Nat.succ.inj h)]

/-- The inverse of a permutation puts the words back. -/
theorem permute_permute {p q : List ℕ} {n : ℕ} (hq : q.length = n)
    (hpq : ∀ i < n, p[q.getD i 0]? = some i) {xs : List Word} (hx : xs.length = n) :
    permute q (permute p xs) = xs := by
  apply List.ext_getElem
  · rw [length_permute, hq, hx]
  · intro i hi hi'
    have hlt : i < n := hx ▸ hi'
    have hget : q.getD i 0 = q[i] := by
      rw [List.getD_eq_getElem?_getD, List.getElem?_eq_getElem (hq ▸ hlt)]; rfl
    have h := hpq i hlt
    rw [hget] at h
    simp [permute, h, hi']

theorem tables_words (s : SkeinSize) : (tables s).words = s.words := by cases s <;> rfl

theorem length_permutation (s : SkeinSize) : (tables s).permutation.length = (tables s).words := by
  cases s <;> rfl

theorem length_inverse (T : Tables) : T.inverse.length = T.words := by simp [Tables.inverse]

/-- The tables hold permutations. -/
theorem permutation_inverse (s : SkeinSize) :
    ∀ i < (tables s).words, (tables s).permutation[(tables s).inverse.getD i 0]? = some i := by
  cases s <;> decide

section Rounds

variable {s : SkeinSize} {key tweak : List Word} {xs : List Word}

theorem length_encryptRound (d : ℕ) :
    (encryptRound (tables s) key tweak d xs).length = (tables s).words := by
  simp [encryptRound, length_permutation]

theorem decryptRound_encryptRound (d : ℕ) (hx : xs.length = (tables s).words) :
    decryptRound (tables s) key tweak d (encryptRound (tables s) key tweak d xs) = xs := by
  unfold decryptRound encryptRound
  split
  · rw [permute_permute (length_inverse _) (permutation_inverse s) (by simp [hx]), unmix_mix,
      zipWith_sub_add (by simp [hx])]
  · rw [permute_permute (length_inverse _) (permutation_inverse s) (by simp [hx]), unmix_mix]

theorem length_encryptRounds (hx : xs.length = (tables s).words) :
    ∀ d, (encryptRounds (tables s) key tweak d xs).length = (tables s).words
  | 0 => hx
  | d + 1 => length_encryptRound d

theorem decryptRounds_encryptRounds (hx : xs.length = (tables s).words) :
    ∀ d, decryptRounds (tables s) key tweak d (encryptRounds (tables s) key tweak d xs) = xs
  | 0 => rfl
  | d + 1 => by
    rw [encryptRounds, decryptRounds, decryptRound_encryptRound d (length_encryptRounds hx d),
      decryptRounds_encryptRounds hx d]

theorem length_decryptRound (d : ℕ) :
    (decryptRound (tables s) key tweak d xs).length = (tables s).words := by
  unfold decryptRound
  split <;> simp [length_inverse]

theorem length_decryptRounds : ∀ (d : ℕ) {xs : List Word}, xs.length = (tables s).words →
    (decryptRounds (tables s) key tweak d xs).length = (tables s).words
  | 0, _, hx => hx
  | d + 1, _, _ => length_decryptRounds d (length_decryptRound d)

end Rounds

/-- Threefish as the program calls it. -/
def threefish : Threefish where
  threefishEncryptBlockWords := threefishEncryptBlockWords
  threefishDecryptBlockWords := threefishDecryptBlockWords
  encrypt_length k b hb := by
    rw [← tables_words] at hb ⊢
    simp [threefishEncryptBlockWords, encryptBlock, length_encryptRounds hb]
  decrypt_length k b hb := by
    rw [← tables_words] at hb ⊢
    exact length_decryptRounds _ (by simp [hb])

theorem threefish_inverts (k : ThreefishKey) : threefish.Inverts k := by
  intro b hb
  rw [← tables_words] at hb
  have hlen := @length_encryptRounds k.stateSize k.key k.tweak b hb
  show decryptBlock _ _ _ (encryptBlock _ _ _ b) = b
  rw [decryptBlock, encryptBlock, zipWith_sub_add (by rw [hlen, length_subkey]),
    decryptRounds_encryptRounds hb]

example : threefishEncryptBlockWords (threefishSetKey .Skein256 (List.replicate 4 0) 0 0)
    (List.replicate 4 0) =
    [0x94EEEA8B1F2ADA84, 0xADF103313EAE6670, 0x952419A1F4B16D53, 0xD83F13E63C9F6B11] := by
  decide +kernel

/-! ### Skein -/

/-- The part of a context that is the state of the chaining: the chaining
variables and the tweak words. -/
structure Chaining where
  X : List Word
  T0 : Word
  T1 : Word
  deriving DecidableEq, Repr

def FLAG_FIRST : Word := (1 : Word) <<< 62
def FLAG_FINAL : Word := (1 : Word) <<< 63
def BLK_TYPE_KEY : Word := 0
def BLK_TYPE_CFG : Word := (4 : Word) <<< 56
def BLK_TYPE_MSG : Word := (48 : Word) <<< 56
def BLK_TYPE_OUT : Word := (63 : Word) <<< 56
def SCHEMA_VER : Word := 0x0000000133414853

/-- The lower half of a word. -/
def low32 (x : Word) : Word := x &&& (0xffffffff : Word)

/-- `Skein_Start_New_Type`. -/
def startNewType (X : List Word) (blk_type : Word) : Chaining := ⟨X, 0, FLAG_FIRST ||| blk_type⟩

/-- The tweak words count the bytes, 32 bits at a time. -/
def addCount (T0 T1 byteCntAdd : Word) : Word × Word :=
  let words0 := byteCntAdd + low32 T0
  let words1 := (words0 >>> 32) + low32 (T0 >>> 32)
  let words2 := (words1 >>> 32) + low32 T1
  (low32 words0 ||| (low32 words1 <<< 32), T1 ||| low32 words2)

/-- One block of `Skein_256_Process_Block` and its siblings. -/
def processBlock (s : SkeinSize) (c : Chaining) (w : List Word) (byteCntAdd : Word) : Chaining :=
  let (T0, T1) := addCount c.T0 c.T1 byteCntAdd
  let key := threefishSetKey s c.X T0 T1
  ⟨xorBlock (threefishEncryptBlockWords key w) w, T0, T1 &&& ~~~FLAG_FIRST⟩

/-- `n` full blocks, and the bytes left. -/
def processBlocks (s : SkeinSize) : ℕ → Chaining → List Byte → Chaining × List Byte
  | 0, c, msg => (c, msg)
  | n + 1, c, msg =>
    processBlocks s n (processBlock s c (wordsOf (msg.take s.bytes)) (UInt64.ofNat s.bytes))
      (msg.drop s.bytes)

/-- All blocks of a message, the last of them padded with zeros and final. -/
def finalBlock (s : SkeinSize) (c : Chaining) (msg : List Byte) : Chaining :=
  let (c, rest) := processBlocks s ((msg.length - 1) / s.bytes) c msg
  processBlock s { c with T1 := c.T1 ||| FLAG_FINAL }
    (wordsOf (rest ++ List.replicate (s.bytes - rest.length) 0)) (UInt64.ofNat rest.length)

/-- A context: its size, the chaining variables the message starts with, and
the message. -/
structure SkeinCtx where
  skeinSize : SkeinSize
  XSave : List Word
  msg : List Byte
  deriving DecidableEq, Repr

/-- The config block, for a digest of one block: the context before any message. -/
def configure (s : SkeinSize) (X : List Word) : SkeinCtx :=
  let cfg := [SCHEMA_VER, UInt64.ofNat s.bits, 0] ++ List.replicate (s.words - 3) 0
  ⟨s, (processBlock s (startNewType X (BLK_TYPE_CFG ||| FLAG_FINAL)) cfg 32).X, []⟩

/-- `skeinMacInit` with a key and a digest of one block. -/
def skeinMacInit (s : SkeinSize) (key : List Word) : SkeinCtx :=
  configure s (finalBlock s (startNewType (List.replicate s.words 0) BLK_TYPE_KEY)
    ((bytesOf key).take s.bytes)).X

def skeinUpdate (ctx : SkeinCtx) (msg : List Byte) : SkeinCtx := { ctx with msg := ctx.msg ++ msg }

/-- `skeinFinal` for a digest of one block. -/
def skeinFinal (ctx : SkeinCtx) : List Word :=
  let s := ctx.skeinSize
  let c := finalBlock s (startNewType ctx.XSave BLK_TYPE_MSG) ctx.msg
  (processBlock s (startNewType c.X (BLK_TYPE_OUT ||| FLAG_FINAL)) (List.replicate s.words 0) 8).X

/-- The hash of a run of bytes, without a MAC key: `keyHash`. -/
def keyHash (s : SkeinSize) (input : List Byte) : List Word :=
  skeinFinal (skeinUpdate (configure s (List.replicate s.words 0)) input)

example : keyHash .Skein256 (List.replicate 32 0) =
    [8724517391939661071, 13370976164479673572, 17406185901391511763, 5767528745175948617] := by
  decide +kernel

theorem length_processBlock {s : SkeinSize} (c : Chaining) {w : List Word} (n : Word)
    (hw : w.length = s.words) : (processBlock s c w n).X.length = s.words :=
  length_xorBlock (threefish.encrypt_length (threefishSetKey s c.X _ _) w hw) hw

/-- Skein as the program calls it. -/
def skein : Skein where
  Ctx := SkeinCtx
  skeinMacInit := skeinMacInit
  skeinUpdate := skeinUpdate
  skeinFinal := skeinFinal
  update_append c a b := by simp [skeinUpdate]
  final_length s k a := length_processBlock _ _ List.length_replicate

/-! ### A small file -/

/-- A run with these primitives, the shipped constants and the key `1, 2, 3, 4`. -/
def sampleJob (encrypt : Bool) (file : List Byte) : Job where
  tf := threefish
  sk := skein
  args :=
    { rename_file := [0]
      target_file := [1]
      iv := some [10, 11, 12, 13]
      file_size := file.length
      state_size := .Skein256
      encrypt := encrypt
      legacy_hash := false
      rename := false }
  tf_key := threefishSetKey .Skein256 [1, 2, 3, 4] 0x5368616C6C206E6 0x26520646976756C
  mac_key := keyHash .Skein256 (bytesOf [1, 2, 3, 4])
  file := file
  que_size := QUE_SIZE
  max_chunk := MAX_CHUNK_SIZE
  temp_file_name := [2]
  state_size_eq := rfl
  file_size_eq := rfl
  max_chunk_pos := (MAX_CHUNK_SIZE_ok .Skein256).1
  max_chunk_dvd := (MAX_CHUNK_SIZE_ok .Skein256).2.1
  max_chunk_reads := (MAX_CHUNK_SIZE_ok .Skein256).2.2

/-- A file of three bytes. -/
def sampleText : List Byte := [1, 2, 3]

/-- `sampleText` encrypted. -/
def sampleFile : List Byte := bytesOf
  [10, 11, 12, 13,
    1081593418775062578, 3400144510835963264, 13994529619977594781, 1293850215656689715,
    1220126898432860785, 9068258850121021144, 17334218332813377442, 5985120077805698530,
    17269949756907906476, 15311122284055217886, 10986033252974000002, 14010865042705103241]

end Skein3fish

end Threefizer
