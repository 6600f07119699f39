/-
# The unrolled assignments of the mode (`cbcEncrypt.c`, `cbcDecrypt.c`)

The six functions of the source write every word of a block out: an
assignment for each word saved, one for each word mixed in. Here a run of
such assignments is the list of its index pairs, as they stand in the source,
and each function is its own five (or two) runs. That no index is out of
line, in any of the functions, is that every run is the run `(0, 0), (1, 1),
...` over the whole block (`Straight`); then the assignments one after the
other are the block operations of `CbcMode` (`decryptInPlace_eq_blocks`,
`encryptInPlace_eq_blocks`).
-/
import Threefizer.CbcMode

namespace Threefizer
namespace Unrolled

open Words

/-! ### Runs of assignments -/

/-- `dst[i+a] = op(dst[i+a], src[j+b])` for each pair `(a, b)`, in this order.
What is read is read from the memory as the assignments before have left it. -/
def assign (op : Word → Word → Word) (pairs : List (ℕ × ℕ)) (i j : ℕ) (src : List Word → List Word)
    (dst : List Word) : List Word :=
  pairs.foldl (fun dst p => dst.set (i + p.1) (op (dst.getD (i + p.1) 0) ((src dst).getD (j + p.2) 0))) dst

/-- `dst[i+a] = src[j+b]`. -/
def copy (pairs : List (ℕ × ℕ)) (i j : ℕ) (src dst : List Word) : List Word :=
  assign (fun _ y => y) pairs i j (fun _ => src) dst

/-- `dst[i+a] ^= src[j+b]`. -/
def xorWords (pairs : List (ℕ × ℕ)) (i j : ℕ) (src dst : List Word) : List Word :=
  assign (· ^^^ ·) pairs i j (fun _ => src) dst

/-- `buf[i+a] ^= buf[j+b]`. -/
def xorSelf (pairs : List (ℕ × ℕ)) (i j : ℕ) (buf : List Word) : List Word :=
  assign (· ^^^ ·) pairs i j id buf

/-! ### The functions of the source -/

/-- The runs of an encryption function: `plain_text[a] ^= iv[b]` and
`plain_text[block+a] ^= plain_text[offset+b]`. -/
structure EncryptRuns where
  slice : ℕ
  xor_iv : List (ℕ × ℕ)
  feedback : List (ℕ × ℕ)

/-- The runs of a decryption function: `prev_block_even[a] =
cipher_text[block+b]` and the same for the odd blocks, `cipher_text[a] ^=
iv[b]`, and `cipher_text[block+a] ^= prev_block_odd[b]` in an even round,
`prev_block_even[b]` in an odd one. -/
structure DecryptRuns where
  slice : ℕ
  save_even : List (ℕ × ℕ)
  save_odd : List (ℕ × ℕ)
  xor_iv : List (ℕ × ℕ)
  xor_odd : List (ℕ × ℕ)
  xor_even : List (ℕ × ℕ)

/-- One round of an encryption function, at word index `block`. -/
def encryptRound (P : EncryptRuns) (E : List Word → List Word) (plain_text : List Word) (block : ℕ) :
    List Word :=
  let plain_text :=
    if block > 0 then xorSelf P.feedback block (block - P.slice) plain_text else plain_text
  storeAt P.slice plain_text block (E (blockAt P.slice plain_text block))

def encryptLoop (P : EncryptRuns) (E : List Word → List Word) (iv plain_text : List Word) (num_blocks : ℕ) :
    List Word :=
  (List.range num_blocks).foldl (fun buf i => encryptRound P E buf (i * P.slice))
    (xorWords P.xor_iv 0 0 iv plain_text)

/-- One round of a decryption function, at word index `block`. -/
def decryptRound (P : DecryptRuns) (D : List Word → List Word) (iv : List Word) (st : DecryptBuffers)
    (block : ℕ) : DecryptBuffers :=
  let even := (block / P.slice) % 2 == 0
  let st :=
    if even then { st with prev_block_even := copy P.save_even 0 block st.cipher_text st.prev_block_even }
    else { st with prev_block_odd := copy P.save_odd 0 block st.cipher_text st.prev_block_odd }
  let buf := storeAt P.slice st.cipher_text block (D (blockAt P.slice st.cipher_text block))
  { st with
    cipher_text :=
      if block = 0 then xorWords P.xor_iv 0 0 iv buf
      else if even then xorWords P.xor_odd block 0 st.prev_block_odd buf
      else xorWords P.xor_even block 0 st.prev_block_even buf }

def decryptLoop (P : DecryptRuns) (D : List Word → List Word) (iv cipher_text : List Word) (num_blocks : ℕ) :
    List Word :=
  ((List.range num_blocks).foldl (fun st i => decryptRound P D iv st (i * P.slice))
    ⟨cipher_text, List.replicate P.slice 0, List.replicate P.slice 0⟩).cipher_text

def encryptRuns256 : EncryptRuns where
  slice := SAFE_SLICE
  xor_iv := [(0, 0), (1, 1), (2, 2), (3, 3)]
  feedback := [(0, 0), (1, 1), (2, 2), (3, 3)]

def encryptRuns512 : EncryptRuns where
  slice := SECURE_SLICE
  xor_iv := [(0, 0), (1, 1), (2, 2), (3, 3), (4, 4), (5, 5), (6, 6), (7, 7)]
  feedback := [(0, 0), (1, 1), (2, 2), (3, 3), (4, 4), (5, 5), (6, 6), (7, 7)]

def encryptRuns1024 : EncryptRuns where
  slice := FUTURE_PROOF_SLICE
  xor_iv := [(0, 0), (1, 1), (2, 2), (3, 3), (4, 4), (5, 5), (6, 6), (7, 7), (8, 8), (9, 9), (10, 10),
    (11, 11), (12, 12), (13, 13), (14, 14), (15, 15)]
  feedback := [(0, 0), (1, 1), (2, 2), (3, 3), (4, 4), (5, 5), (6, 6), (7, 7), (8, 8), (9, 9), (10, 10),
    (11, 11), (12, 12), (13, 13), (14, 14), (15, 15)]

def decryptRuns256 : DecryptRuns where
  slice := SAFE_SLICE
  save_even := [(0, 0), (1, 1), (2, 2), (3, 3)]
  save_odd := [(0, 0), (1, 1), (2, 2), (3, 3)]
  xor_iv := [(0, 0), (1, 1), (2, 2), (3, 3)]
  xor_odd := [(0, 0), (1, 1), (2, 2), (3, 3)]
  xor_even := [(0, 0), (1, 1), (2, 2), (3, 3)]

def decryptRuns512 : DecryptRuns where
  slice := SECURE_SLICE
  save_even := [(0, 0), (1, 1), (2, 2), (3, 3), (4, 4), (5, 5), (6, 6), (7, 7)]
  save_odd := [(0, 0), (1, 1), (2, 2), (3, 3), (4, 4), (5, 5), (6, 6), (7, 7)]
  xor_iv := [(0, 0), (1, 1), (2, 2), (3, 3), (4, 4), (5, 5), (6, 6), (7, 7)]
  xor_odd := [(0, 0), (1, 1), (2, 2), (3, 3), (4, 4), (5, 5), (6, 6), (7, 7)]
  xor_even := [(0, 0), (1, 1), (2, 2), (3, 3), (4, 4), (5, 5), (6, 6), (7, 7)]

def decryptRuns1024 : DecryptRuns where
  slice := FUTURE_PROOF_SLICE
  save_even := [(0, 0), (1, 1), (2, 2), (3, 3), (4, 4), (5, 5), (6, 6), (7, 7), (8, 8), (9, 9), (10, 10),
    (11, 11), (12, 12), (13, 13), (14, 14), (15, 15)]
  save_odd := [(0, 0), (1, 1), (2, 2), (3, 3), (4, 4), (5, 5), (6, 6), (7, 7), (8, 8), (9, 9), (10, 10),
    (11, 11), (12, 12), (13, 13), (14, 14), (15, 15)]
  xor_iv := [(0, 0), (1, 1), (2, 2), (3, 3), (4, 4), (5, 5), (6, 6), (7, 7), (8, 8), (9, 9), (10, 10),
    (11, 11), (12, 12), (13, 13), (14, 14), (15, 15)]
  xor_odd := [(0, 0), (1, 1), (2, 2), (3, 3), (4, 4), (5, 5), (6, 6), (7, 7), (8, 8), (9, 9), (10, 10),
    (11, 11), (12, 12), (13, 13), (14, 14), (15, 15)]
  xor_even := [(0, 0), (1, 1), (2, 2), (3, 3), (4, 4), (5, 5), (6, 6), (7, 7), (8, 8), (9, 9), (10, 10),
    (11, 11), (12, 12), (13, 13), (14, 14), (15, 15)]

section Functions

variable (tf : Threefish) (key : ThreefishKey)

def cbc256Encrypt (iv plain_text : List Word) (num_blocks : ℕ) : List Word :=
  encryptLoop encryptRuns256 (tf.threefishEncryptBlockWords key) iv plain_text num_blocks

def cbc512Encrypt (iv plain_text : List Word) (num_blocks : ℕ) : List Word :=
  encryptLoop encryptRuns512 (tf.threefishEncryptBlockWords key) iv plain_text num_blocks

def cbc1024Encrypt (iv plain_text : List Word) (num_blocks : ℕ) : List Word :=
  encryptLoop encryptRuns1024 (tf.threefishEncryptBlockWords key) iv plain_text num_blocks

/-- `encryptInPlace`. -/
def encryptInPlace (chain plain_text : List Word) (num_blocks : ℕ) : List Word :=
  match key.stateSize with
  | .Skein256 => cbc256Encrypt tf key chain plain_text num_blocks
  | .Skein512 => cbc512Encrypt tf key chain plain_text num_blocks
  | .Skein1024 => cbc1024Encrypt tf key chain plain_text num_blocks

def cbc256Decrypt (iv cipher_text : List Word) (num_blocks : ℕ) : List Word :=
  decryptLoop decryptRuns256 (tf.threefishDecryptBlockWords key) iv cipher_text num_blocks

def cbc512Decrypt (iv cipher_text : List Word) (num_blocks : ℕ) : List Word :=
  decryptLoop decryptRuns512 (tf.threefishDecryptBlockWords key) iv cipher_text num_blocks

def cbc1024Decrypt (iv cipher_text : List Word) (num_blocks : ℕ) : List Word :=
  decryptLoop decryptRuns1024 (tf.threefishDecryptBlockWords key) iv cipher_text num_blocks

/-- `decryptInPlace`. -/
def decryptInPlace (chain plain_text : List Word) (num_blocks : ℕ) : List Word :=
  match key.stateSize with
  | .Skein256 => cbc256Decrypt tf key chain plain_text num_blocks
  | .Skein512 => cbc512Decrypt tf key chain plain_text num_blocks
  | .Skein1024 => cbc1024Decrypt tf key chain plain_text num_blocks

end Functions

/-! ### A straight run is a block operation -/

/-- The pairs `(0, 0), ..., (w-1, w-1)`. -/
def straight (w : ℕ) : List (ℕ × ℕ) := (List.range w).map fun k => (k, k)

section Assign

variable {op : Word → Word → Word} {src : List Word → List Word} {s dst : List Word} {i j : ℕ}

theorem length_assign (pairs : List (ℕ × ℕ)) :
    ∀ dst : List Word, (assign op pairs i j src dst).length = dst.length := by
  induction pairs with
  | nil => exact fun _ => rfl
  | cons p pairs ih => exact fun dst => (ih _).trans List.length_set

/-- The last assignment of a straight run. -/
theorem assign_straight_succ (w : ℕ) : assign op (straight (w + 1)) i j src dst =
    (assign op (straight w) i j src dst).set (i + w) (op ((assign op (straight w) i j src dst).getD (i + w) 0)
      ((src (assign op (straight w) i j src dst)).getD (j + w) 0)) := by
  simp only [assign, straight, List.range_succ, List.map_append, List.map_cons, List.map_nil, List.foldl_append,
    List.foldl_cons, List.foldl_nil]

/-- What a straight run leaves at each index. The source has to go on giving
the words of `s` while words from index `i` on are stored. -/
theorem getElem?_assign : ∀ w : ℕ,
    (∀ d : List Word, (∀ n < i, d[n]? = dst[n]?) → ∀ b < w, (src d).getD (j + b) 0 = s.getD (j + b) 0) →
    i + w ≤ dst.length → ∀ n, (assign op (straight w) i j src dst)[n]? =
      if i ≤ n ∧ n < i + w then some (op (dst.getD n 0) (s.getD (j + (n - i)) 0)) else dst[n]?
  | 0, _, _, n => by
    rw [if_neg (by omega)]
    rfl
  | w + 1, hsrc, h, n => by
    have ih := getElem?_assign w (fun d hd b hb => hsrc d hd b (by omega)) (by omega)
    have hbefore : ∀ n < i, (assign op (straight w) i j src dst)[n]? = dst[n]? := fun n hn => by
      rw [ih, if_neg (by omega)]
    -- the word the last assignment changes is still the old one
    have hold : (assign op (straight w) i j src dst).getD (i + w) 0 = dst.getD (i + w) 0 := by
      rw [List.getD_eq_getElem?_getD, ih, if_neg (by omega), ← List.getD_eq_getElem?_getD]
    rw [assign_straight_succ, hold, hsrc _ hbefore w (by omega), List.getElem?_set, length_assign, ih]
    rcases Nat.lt_trichotomy n (i + w) with hn | rfl | hn
    · rw [if_neg (by omega)]
      simp only [show (n < i + w) = (n < i + (w + 1)) by rw [eq_iff_iff]; omega]
    · rw [if_pos rfl, if_pos (by omega), if_pos (by omega), Nat.add_sub_cancel_left]
    · rw [if_neg (by omega), if_neg (by omega), if_neg (by omega)]

theorem getElem?_storeAt {w : ℕ} {b : List Word} (hb : b.length = w) (h : i + w ≤ dst.length) (n : ℕ) :
    (storeAt w dst i b)[n]? = if i ≤ n ∧ n < i + w then b[n - i]? else dst[n]? := by
  have hi : (dst.take i).length = i := List.length_take_of_le (by omega)
  rw [storeAt, List.getElem?_append, hi]
  rcases Nat.lt_or_ge n i with hn | hn
  · rw [if_pos hn, if_neg (by omega), List.getElem?_take_of_lt hn]
  · rw [if_neg (by omega), List.getElem?_append, hb]
    rcases Nat.lt_or_ge n (i + w) with hw | hw
    · rw [if_pos (by omega), if_pos ⟨hn, hw⟩]
    · rw [if_neg (by omega), if_neg (by omega), List.getElem?_drop]
      congr 1
      omega

/-- A straight run stores the block made from the two blocks word by word. -/
theorem assign_straight {w : ℕ}
    (hsrc : ∀ d : List Word, (∀ n < i, d[n]? = dst[n]?) → ∀ b < w, (src d).getD (j + b) 0 = s.getD (j + b) 0)
    (h : i + w ≤ dst.length) (hs : j + w ≤ s.length) : assign op (straight w) i j src dst =
      storeAt w dst i (List.zipWith op (blockAt w dst i) (blockAt w s j)) := by
  have hlen : (List.zipWith op (blockAt w dst i) (blockAt w s j)).length = w := by
    simp only [blockAt, List.length_zipWith, List.length_take, List.length_drop]
    omega
  refine List.ext_getElem? fun n => ?_
  rw [getElem?_assign w hsrc h, getElem?_storeAt hlen h]
  by_cases hn : i ≤ n ∧ n < i + w
  · have hd : n < dst.length := by omega
    have hj : j + (n - i) < s.length := by omega
    have hni : i + (n - i) = n := by omega
    rw [if_pos hn, if_pos hn, List.getElem?_zipWith, blockAt, blockAt, List.getElem?_take_of_lt (by omega),
      List.getElem?_take_of_lt (by omega), List.getElem?_drop, List.getElem?_drop, hni,
      List.getElem?_eq_getElem hd, List.getElem?_eq_getElem hj]
    simp [List.getD_eq_getElem?_getD, hd, hj]
  · rw [if_neg hn, if_neg hn]

end Assign

section Rounds

variable {w : ℕ} {dst s : List Word} {i j : ℕ}

theorem blockAt_zero (h : s.length = w) : blockAt w s 0 = s := by
  rw [blockAt, List.drop_zero, ← h, List.take_length]

theorem length_blockAt (h : i + w ≤ s.length) : (blockAt w s i).length = w := by
  rw [blockAt, List.length_take, List.length_drop]
  omega

theorem length_storeAt {b : List Word} (hb : b.length = w) (h : i + w ≤ dst.length) :
    (storeAt w dst i b).length = dst.length := by
  rw [storeAt, List.length_append, List.length_append, List.length_take, List.length_drop, hb]
  omega

theorem length_xorAt {b : List Word} (hb : b.length = w) (h : i + w ≤ dst.length) :
    (xorAt w dst i b).length = dst.length :=
  length_storeAt (length_xorBlock (length_blockAt h) hb) h

theorem copy_straight (hd : dst.length = w) (hs : j + w ≤ s.length) :
    copy (straight w) 0 j s dst = blockAt w s j := by
  have hj := length_blockAt hs
  have hzip : List.zipWith (fun _ y => y) (blockAt w dst 0) (blockAt w s j) = blockAt w s j := by
    rw [blockAt_zero hd, ← List.map_uncurry_zip_eq_zipWith]
    exact List.map_snd_zip (by omega)
  rw [copy, assign_straight (fun _ _ _ _ => rfl) (by omega) hs, hzip, storeAt, List.take_zero, List.nil_append,
    List.drop_of_length_le (by omega), List.append_nil]

theorem xorWords_straight (h : i + w ≤ dst.length) (hs : s.length = w) :
    xorWords (straight w) i 0 s dst = xorAt w dst i s := by
  rw [xorWords, assign_straight (fun _ _ _ _ => rfl) h (by omega), blockAt_zero hs]
  rfl

/-- The block mixed in lies before the one that is changed. -/
theorem xorSelf_straight (h : i + w ≤ dst.length) (hj : j + w ≤ i) :
    xorSelf (straight w) i j dst = xorAt w dst i (blockAt w dst j) := by
  refine assign_straight (fun d hd b hb => ?_) h (by omega)
  rw [List.getD_eq_getElem?_getD, List.getD_eq_getElem?_getD, id_eq, hd _ (by omega)]

/-! ### The loops -/

/-- An encryption function all of whose runs are straight. -/
def EncryptRuns.straight (w : ℕ) : EncryptRuns := ⟨w, Unrolled.straight w, Unrolled.straight w⟩

/-- A decryption function all of whose runs are straight. -/
def DecryptRuns.straight (w : ℕ) : DecryptRuns :=
  ⟨w, Unrolled.straight w, Unrolled.straight w, Unrolled.straight w, Unrolled.straight w, Unrolled.straight w⟩

theorem encryptRound_straight (E : List Word → List Word) {buf : List Word} {k : ℕ}
    (h : (k + 1) * w ≤ buf.length) : encryptRound (.straight w) E buf (k * w) = cbcEncryptRound w E buf (k * w) := by
  rw [Nat.add_one_mul] at h
  rcases Nat.eq_zero_or_pos (k * w) with h0 | hpos
  · simp only [encryptRound, cbcEncryptRound, h0, EncryptRuns.straight, gt_iff_lt, lt_irrefl, if_false]
  · have hw : w ≤ k * w := Nat.le_mul_of_pos_left w (Nat.pos_of_mul_pos_right hpos)
    simp only [encryptRound, cbcEncryptRound, if_pos hpos, EncryptRuns.straight]
    rw [xorSelf_straight h (by omega)]

theorem length_cbcEncryptRound {E : List Word → List Word} (hE : ∀ b, b.length = w → (E b).length = w)
    {buf : List Word} {k : ℕ} (h : (k + 1) * w ≤ buf.length) :
    (cbcEncryptRound w E buf (k * w)).length = buf.length := by
  rw [Nat.add_one_mul] at h
  have hx : ∀ b : List Word, b.length = buf.length →
      (storeAt w b (k * w) (E (blockAt w b (k * w)))).length = buf.length := fun b hb => by
    rw [length_storeAt (hE _ (length_blockAt (by omega))) (by omega), hb]
  rw [cbcEncryptRound]
  split
  · exact hx _ (length_xorAt (length_blockAt (by omega)) h)
  · exact hx _ rfl

theorem encryptLoop_straight {E : List Word → List Word} (hE : ∀ b, b.length = w → (E b).length = w)
    {iv buf : List Word} (hiv : iv.length = w) (hbuf : w ≤ buf.length) {n : ℕ} (h : n * w ≤ buf.length) :
    encryptLoop (.straight w) E iv buf n = cbcEncrypt w E iv buf n := by
  have hrounds : ∀ k ≤ n,
      (List.range k).foldl (fun b i => encryptRound (.straight w) E b (i * w))
          (xorWords (Unrolled.straight w) 0 0 iv buf) =
        (List.range k).foldl (fun b i => cbcEncryptRound w E b (i * w)) (xorAt w buf 0 iv) ∧
      ((List.range k).foldl (fun b i => cbcEncryptRound w E b (i * w)) (xorAt w buf 0 iv)).length =
        buf.length := by
    intro k
    induction k with
    | zero => exact fun _ => ⟨xorWords_straight (by omega) hiv, length_xorAt hiv (by omega)⟩
    | succ k ih =>
      intro hk
      obtain ⟨heq, hlen⟩ := ih (by omega)
      have hk' : (k + 1) * w ≤ buf.length := le_trans (Nat.mul_le_mul_right w hk) h
      simp only [List.range_succ, List.foldl_append, List.foldl_cons, List.foldl_nil, heq]
      exact ⟨encryptRound_straight E (hlen ▸ hk'), (length_cbcEncryptRound hE (hlen ▸ hk')).trans hlen⟩
  exact (hrounds n le_rfl).1

/-- The buffers of a decryption function have the sizes they are declared with. -/
structure Sized (w len : ℕ) (st : DecryptBuffers) : Prop where
  text : st.cipher_text.length = len
  even : st.prev_block_even.length = w
  odd : st.prev_block_odd.length = w

section Decrypt

variable {D : List Word → List Word} {iv : List Word} {st : DecryptBuffers} {k : ℕ}

theorem decryptRound_straight (hD : ∀ b, b.length = w → (D b).length = w) (hiv : iv.length = w)
    (hst : Sized w dst.length st) (h : (k + 1) * w ≤ dst.length) :
    decryptRound (.straight w) D iv st (k * w) = cbcDecryptRound w D iv st (k * w) := by
  rw [Nat.add_one_mul, ← hst.text] at h
  have hb := length_blockAt h
  have hcopy : ∀ b : List Word, b.length = w →
      copy (Unrolled.straight w) 0 (k * w) st.cipher_text b = blockAt w st.cipher_text (k * w) :=
    fun b hb => copy_straight hb h
  have hxor : ∀ b : List Word, b.length = w → ∀ i, i = k * w →
      xorWords (Unrolled.straight w) i 0 b (storeAt w st.cipher_text i (D (blockAt w st.cipher_text i))) =
        xorAt w (storeAt w st.cipher_text i (D (blockAt w st.cipher_text i))) i b := by
    rintro b hb' i rfl
    exact xorWords_straight (by rw [length_storeAt (hD _ hb) h]; exact h) hb'
  simp only [decryptRound, cbcDecryptRound, DecryptRuns.straight, hcopy _ hst.even, hcopy _ hst.odd]
  by_cases he : (k * w / w % 2 == 0) = true
  · simp only [he, if_true]
    rcases Nat.eq_zero_or_pos (k * w) with h0 | hpos
    · rw [h0, if_pos rfl, if_pos rfl, hxor iv hiv 0 h0.symm]
    · rw [if_neg hpos.ne', if_neg hpos.ne', hxor _ hst.odd _ rfl]
  · simp only [he, if_false, Bool.false_eq_true]
    rcases Nat.eq_zero_or_pos (k * w) with h0 | hpos
    · rw [h0, if_pos rfl, if_pos rfl, hxor iv hiv 0 h0.symm]
    · rw [if_neg hpos.ne', if_neg hpos.ne', hxor _ hst.even _ rfl]

theorem sized_cbcDecryptRound (hD : ∀ b, b.length = w → (D b).length = w) (hiv : iv.length = w)
    (hst : Sized w dst.length st) (h : (k + 1) * w ≤ dst.length) :
    Sized w dst.length (cbcDecryptRound w D iv st (k * w)) := by
  rw [Nat.add_one_mul, ← hst.text] at h
  have hb := length_blockAt h
  have hlen := length_storeAt (hD _ hb) h
  have hxor : ∀ b : List Word, b.length = w → (xorAt w (storeAt w st.cipher_text (k * w)
      (D (blockAt w st.cipher_text (k * w)))) (k * w) b).length = dst.length := fun b hb => by
    rw [length_xorAt hb (by omega), hlen, hst.text]
  by_cases he : (k * w / w % 2 == 0) = true
  · simp only [cbcDecryptRound, he, if_true]
    refine ⟨hxor _ ?_, hb, hst.odd⟩
    split
    · exact hiv
    · exact hst.odd
  · simp only [cbcDecryptRound, he, if_false, Bool.false_eq_true]
    refine ⟨hxor _ ?_, hst.even, hb⟩
    split
    · exact hiv
    · exact hst.even

theorem decryptLoop_straight (hD : ∀ b, b.length = w → (D b).length = w) (hiv : iv.length = w) {n : ℕ}
    (h : n * w ≤ dst.length) : decryptLoop (.straight w) D iv dst n = cbcDecrypt w D iv dst n := by
  let start : DecryptBuffers := ⟨dst, List.replicate w 0, List.replicate w 0⟩
  have hrounds : ∀ k ≤ n, (List.range k).foldl (fun st i => decryptRound (.straight w) D iv st (i * w)) start =
        (List.range k).foldl (fun st i => cbcDecryptRound w D iv st (i * w)) start ∧
      Sized w dst.length ((List.range k).foldl (fun st i => cbcDecryptRound w D iv st (i * w)) start) := by
    intro k
    induction k with
    | zero => exact fun _ => ⟨rfl, rfl, List.length_replicate, List.length_replicate⟩
    | succ k ih =>
      intro hk
      obtain ⟨heq, hst⟩ := ih (by omega)
      have hk' : (k + 1) * w ≤ dst.length := le_trans (Nat.mul_le_mul_right w hk) h
      simp only [List.range_succ, List.foldl_append, List.foldl_cons, List.foldl_nil, heq]
      exact ⟨decryptRound_straight hD hiv hst hk', sized_cbcDecryptRound hD hiv hst hk'⟩
  exact congrArg DecryptBuffers.cipher_text (hrounds n le_rfl).1

end Decrypt

end Rounds

/-! ### No index is out of line -/

section Functions

variable {tf : Threefish} {key : ThreefishKey} {iv buf : List Word} {n : ℕ}

/-- The assignments of the encryption functions make the block operations. -/
theorem encryptInPlace_eq_blocks (hiv : iv.length = key.stateSize.words) (hn : 0 < n)
    (hlen : n * key.stateSize.words ≤ buf.length) :
    encryptInPlace tf key iv buf n = Threefizer.encryptInPlace tf key iv buf n := by
  have hE := tf.encrypt_length key
  have hone : key.stateSize.words ≤ buf.length := le_trans (Nat.le_mul_of_pos_left _ hn) hlen
  cases hs : key.stateSize <;> simp only [hs] at hiv hlen hE hone <;>
    rw [encryptInPlace, Threefizer.encryptInPlace, hs] <;> exact encryptLoop_straight hE hiv hone hlen

/-- The assignments of the decryption functions make the block operations. -/
theorem decryptInPlace_eq_blocks (hiv : iv.length = key.stateSize.words)
    (hlen : n * key.stateSize.words ≤ buf.length) :
    decryptInPlace tf key iv buf n = Threefizer.decryptInPlace tf key iv buf n := by
  have hD := tf.decrypt_length key
  cases hs : key.stateSize <;> simp only [hs] at hiv hlen hD <;>
    rw [decryptInPlace, Threefizer.decryptInPlace, hs] <;> exact decryptLoop_straight hD hiv hlen

end Functions

end Unrolled
end Threefizer
