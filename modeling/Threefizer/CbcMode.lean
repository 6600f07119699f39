/-
# Cipher block chaining in place (`cbc.c`, `cbcEncrypt.c`, `cbcDecrypt.c`)

The three encryption functions are one loop over a buffer of words, unrolled
for blocks of 4, 8 and 16 words, and so are the three decryption functions.
The encryption loop reads the previous block from the buffer, where it is
already encrypted; the decryption loop overwrites the block the next round
needs and keeps it in one of two buffers, chosen by parity. On the first
`num_blocks` blocks both compute the mode of `Lib/Cbc.lean` and they leave the
rest of the buffer alone (`encryptInPlace_eq`, `decryptInPlace_eq`).
-/
import Threefizer.Basic
import Threefizer.Lib.Cbc

namespace Threefizer

open Words

/-! ### Blocks inside a buffer -/

/-- The `w` words from index `i` on. -/
def blockAt (w : ℕ) (buf : List Word) (i : ℕ) : List Word := (buf.drop i).take w

/-- The buffer with the `w` words from index `i` on replaced. -/
def storeAt (w : ℕ) (buf : List Word) (i : ℕ) (b : List Word) : List Word :=
  buf.take i ++ (b ++ buf.drop (i + w))

/-- The blocks of `w` words. -/
def ofWidth (w : ℕ) : Set (List Word) := {b | b.length = w}

/-- Two blocks, word by word. -/
def xorBlock (a b : List Word) : List Word := List.zipWith (· ^^^ ·) a b

/-- `buf[i+j] ^= src[j]` for the `w` indices `j` of a block. -/
def xorAt (w : ℕ) (buf : List Word) (i : ℕ) (src : List Word) : List Word :=
  storeAt w buf i (xorBlock (blockAt w buf i) src)

theorem length_xorBlock {w : ℕ} {a b : List Word} (ha : a.length = w) (hb : b.length = w) :
    (xorBlock a b).length = w := by simp [xorBlock, ha, hb]

/-- Mixing in a block twice takes it out again. -/
theorem xorBlock_cancel : ∀ {a b : List Word}, a.length = b.length →
    xorBlock (xorBlock a b) b = a
  | [], [], _ => rfl
  | x :: a, y :: b, h => by
    have ih := xorBlock_cancel (a := a) (b := b) (by simpa using h)
    simp only [xorBlock, List.zipWith_cons_cons] at ih ⊢
    rw [ih, UInt64.xor_assoc, UInt64.xor_self, UInt64.xor_zero]

theorem blockAt_append {w i : ℕ} {a : List Word} (b : List Word) (h : a.length = i) :
    blockAt w (a ++ b) i = b.take w := by
  subst h; simp [blockAt]

theorem storeAt_append {w i : ℕ} {a : List Word} (b x : List Word) (h : a.length = i) :
    storeAt w (a ++ b) i x = a ++ (x ++ b.drop w) := by
  subst h; simp [storeAt]

/-! ### Encryption -/

/-- One round of the encryption loop, at word index `block`. -/
def cbcEncryptRound (w : ℕ) (E : List Word → List Word) (plain_text : List Word) (block : ℕ) :
    List Word :=
  let plain_text :=
    if block > 0 then xorAt w plain_text block (blockAt w plain_text (block - w)) else plain_text
  storeAt w plain_text block (E (blockAt w plain_text block))

/-- The encryption loop for blocks of `w` words. -/
def cbcEncrypt (w : ℕ) (E : List Word → List Word) (iv plain_text : List Word) (num_blocks : ℕ) :
    List Word :=
  (List.range num_blocks).foldl (fun buf i => cbcEncryptRound w E buf (i * w))
    (xorAt w plain_text 0 iv)

def SAFE_SLICE : ℕ := 4
def SECURE_SLICE : ℕ := 8
def FUTURE_PROOF_SLICE : ℕ := 16

section Functions

variable (tf : Threefish) (key : ThreefishKey)

def cbc256Encrypt (iv plain_text : List Word) (num_blocks : ℕ) : List Word :=
  cbcEncrypt SAFE_SLICE (tf.threefishEncryptBlockWords key) iv plain_text num_blocks

def cbc512Encrypt (iv plain_text : List Word) (num_blocks : ℕ) : List Word :=
  cbcEncrypt SECURE_SLICE (tf.threefishEncryptBlockWords key) iv plain_text num_blocks

def cbc1024Encrypt (iv plain_text : List Word) (num_blocks : ℕ) : List Word :=
  cbcEncrypt FUTURE_PROOF_SLICE (tf.threefishEncryptBlockWords key) iv plain_text num_blocks

/-- `encryptInPlace`. -/
def encryptInPlace (chain plain_text : List Word) (num_blocks : ℕ) : List Word :=
  match key.stateSize with
  | .Skein256 => cbc256Encrypt tf key chain plain_text num_blocks
  | .Skein512 => cbc512Encrypt tf key chain plain_text num_blocks
  | .Skein1024 => cbc1024Encrypt tf key chain plain_text num_blocks

end Functions

/-! ### Decryption -/

/-- The buffers of the decryption loop. -/
structure DecryptBuffers where
  cipher_text : List Word
  prev_block_even : List Word
  prev_block_odd : List Word

/-- One round of the decryption loop, at word index `block`. -/
def cbcDecryptRound (w : ℕ) (D : List Word → List Word) (iv : List Word) (st : DecryptBuffers)
    (block : ℕ) : DecryptBuffers :=
  let even := (block / w) % 2 == 0
  -- save the ciphertext block before it is overwritten
  let st := if even then { st with prev_block_even := blockAt w st.cipher_text block }
    else { st with prev_block_odd := blockAt w st.cipher_text block }
  let buf := storeAt w st.cipher_text block (D (blockAt w st.cipher_text block))
  let prev := if block = 0 then iv else if even then st.prev_block_odd else st.prev_block_even
  { st with cipher_text := xorAt w buf block prev }

/-- The decryption loop for blocks of `w` words. -/
def cbcDecrypt (w : ℕ) (D : List Word → List Word) (iv cipher_text : List Word) (num_blocks : ℕ) :
    List Word :=
  ((List.range num_blocks).foldl (fun st i => cbcDecryptRound w D iv st (i * w))
    ⟨cipher_text, List.replicate w 0, List.replicate w 0⟩).cipher_text

section Functions

variable (tf : Threefish) (key : ThreefishKey)

def cbc256Decrypt (iv cipher_text : List Word) (num_blocks : ℕ) : List Word :=
  cbcDecrypt SAFE_SLICE (tf.threefishDecryptBlockWords key) iv cipher_text num_blocks

def cbc512Decrypt (iv cipher_text : List Word) (num_blocks : ℕ) : List Word :=
  cbcDecrypt SECURE_SLICE (tf.threefishDecryptBlockWords key) iv cipher_text num_blocks

def cbc1024Decrypt (iv cipher_text : List Word) (num_blocks : ℕ) : List Word :=
  cbcDecrypt FUTURE_PROOF_SLICE (tf.threefishDecryptBlockWords key) iv cipher_text num_blocks

/-- `decryptInPlace`. -/
def decryptInPlace (chain plain_text : List Word) (num_blocks : ℕ) : List Word :=
  match key.stateSize with
  | .Skein256 => cbc256Decrypt tf key chain plain_text num_blocks
  | .Skein512 => cbc512Decrypt tf key chain plain_text num_blocks
  | .Skein1024 => cbc1024Decrypt tf key chain plain_text num_blocks

end Functions

/-- `getChainInBuffer`: the last of `num_blocks` blocks. -/
def getChainInBuffer (cipher_text : List Word) (num_blocks : ℕ) (s : SkeinSize) : List Word :=
  blockAt s.words cipher_text (s.words * (num_blocks - 1))

/-- In a run of blocks the last one is the chain. -/
theorem blockAt_chain {w : ℕ} {bs : List (List Word)} (c rest : List Word) (hne : bs ≠ [])
    (hbs : ∀ b ∈ bs, b.length = w) : blockAt w (bs.flatten ++ rest) ((bs.length - 1) * w) = Cbc.chain c bs := by
  obtain ⟨init, last, rfl⟩ : ∃ init last, bs = init ++ [last] := by
    rcases List.eq_nil_or_concat bs with h | ⟨i, l, h⟩
    · exact absurd h hne
    · exact ⟨i, l, by rw [h, List.concat_eq_append]⟩
  have hlast : last.length = w := hbs last (by simp)
  have hinit : init.flatten.length = init.length * w :=
    length_flatten_of_width fun b hb => hbs b (List.mem_append_left _ hb)
  rw [Cbc.chain_concat, List.flatten_append, List.append_assoc, List.length_append, List.length_singleton,
    Nat.add_sub_cancel, blockAt_append _ hinit, List.flatten_singleton]
  exact List.take_left' hlast

/-! ### The loops compute the mode -/

section Loops

variable {w : ℕ} {E D : List Word → List Word}

/-- The encryption loop after `k + 1` rounds. -/
theorem cbcEncrypt_rounds (hE : ∀ b, b.length = w → (E b).length = w) {iv buf : List Word}
    (hiv : iv.length = w) : ∀ k : ℕ, (k + 1) * w ≤ buf.length → 0 < w →
    cbcEncrypt w E iv buf (k + 1) =
      (Cbc.encrypt xorBlock E iv (blocks w (k + 1) buf)).flatten ++ buf.drop ((k + 1) * w)
  | 0, hlen, hw => by
    have hb : (buf.take w).length = w := by simp; omega
    have h0 : xorAt w buf 0 iv = xorBlock (buf.take w) iv ++ buf.drop w := by
      simp [xorAt, storeAt, blockAt]
    have hx := length_xorBlock hb hiv
    have ht : blockAt w (xorBlock (buf.take w) iv ++ buf.drop w) 0 = xorBlock (buf.take w) iv := by
      simp [blockAt, hx]
    have hr : List.range (0 + 1) = [0] := rfl
    simp only [cbcEncrypt, hr, List.foldl_cons, List.foldl_nil, h0, cbcEncryptRound,
      Nat.zero_mul, gt_iff_lt, lt_irrefl, if_false]
    rw [ht]
    simp [storeAt, blocks, Cbc.encrypt, hx]
  | k + 1, hlen, hw => by
    have hk : (k + 1) * w ≤ buf.length := le_trans (Nat.mul_le_mul_right _ (by omega)) hlen
    have ih := cbcEncrypt_rounds hE hiv k hk hw
    set cs := Cbc.encrypt xorBlock E iv (blocks w (k + 1) buf) with hcs
    have hmem : ∀ b ∈ cs, b.length = w :=
      Cbc.encrypt_mem (S := ofWidth w) (fun a ha b hb => length_xorBlock ha hb) hE iv _ hiv
        (mem_blocks_length w hk)
    have hcslen : cs.length = k + 1 := by rw [hcs, Cbc.length_encrypt, length_blocks]
    have hflat : cs.flatten.length = (k + 1) * w := by rw [length_flatten_of_width hmem, hcslen]
    -- the block before the current one is the chain
    have hlast : (Cbc.chain iv cs).length = w := Cbc.chain_mem (S := ofWidth w) hiv hmem
    have hprev : blockAt w (cs.flatten ++ buf.drop ((k + 1) * w)) ((k + 1) * w - w) = Cbc.chain iv cs := by
      have hne : cs ≠ [] := List.ne_nil_of_length_pos (by omega)
      have he : (k + 1) * w - w = (cs.length - 1) * w := by rw [hcslen, Nat.add_one_mul]; exact Nat.add_sub_cancel ..
      rw [he, blockAt_chain iv _ hne hmem]
    have hcur : (blockAt w buf ((k + 1) * w)).length = w := by
      rw [Nat.add_one_mul] at hlen
      simp [blockAt]; omega
    have hround : cbcEncryptRound w E (cs.flatten ++ buf.drop ((k + 1) * w)) ((k + 1) * w) =
        cs.flatten ++ (E (xorBlock (blockAt w buf ((k + 1) * w)) (Cbc.chain iv cs)) ++ buf.drop ((k + 2) * w)) := by
      have hpos : (k + 1) * w > 0 := Nat.mul_pos (by omega) hw
      have hx := length_xorBlock hcur hlast
      simp only [cbcEncryptRound, if_pos hpos, hprev, xorAt, blockAt_append _ hflat,
        storeAt_append _ _ hflat]
      rw [show (buf.drop ((k + 1) * w)).take w = blockAt w buf ((k + 1) * w) from rfl]
      rw [List.take_left' hx, List.drop_left' hx, List.drop_drop, ← Nat.add_one_mul]
    rw [cbcEncrypt] at ih ⊢
    rw [List.range_succ, List.foldl_append, ih]
    simp only [List.foldl_cons, List.foldl_nil]
    rw [hround, blocks_add w (k + 1) 1, Cbc.encrypt_append, ← hcs]
    simp [blocks, Cbc.encrypt, blockAt]

/-- The decryption loop after `k` rounds: the first `k` blocks are decrypted
and the ciphertext of the last of them is in the buffer of its parity. -/
theorem cbcDecrypt_rounds (hD : ∀ b, b.length = w → (D b).length = w) {iv buf e o : List Word}
    (hiv : iv.length = w) (hw : 0 < w) : ∀ k : ℕ, k * w ≤ buf.length →
    let st := (List.range k).foldl (fun st i => cbcDecryptRound w D iv st (i * w)) ⟨buf, e, o⟩
    st.cipher_text =
      (Cbc.decrypt xorBlock D iv (blocks w k buf)).flatten ++ buf.drop (k * w) ∧
    (0 < k → (if (k - 1) % 2 = 0 then st.prev_block_even else st.prev_block_odd) =
      Cbc.chain iv (blocks w k buf))
  | 0, _ => by simp [blocks, Cbc.decrypt]
  | k + 1, hlen => by
    have hk : k * w ≤ buf.length := le_trans (Nat.mul_le_mul_right _ (by omega)) hlen
    have ih := cbcDecrypt_rounds hD (e := e) (o := o) hiv hw k hk
    intro st
    have hst : st = cbcDecryptRound w D iv ((List.range k).foldl
        (fun st i => cbcDecryptRound w D iv st (i * w)) ⟨buf, e, o⟩) (k * w) := by
      simp only [st, List.range_succ, List.foldl_append, List.foldl_cons, List.foldl_nil]
    set st' := (List.range k).foldl (fun st i => cbcDecryptRound w D iv st (i * w)) ⟨buf, e, o⟩
    obtain ⟨ih1, ih2⟩ := ih
    set ds := Cbc.decrypt xorBlock D iv (blocks w k buf) with hds
    set b := blockAt w buf (k * w) with hb
    have hblen : b.length = w := by rw [Nat.add_one_mul] at hlen; simp [hb, blockAt]; omega
    have hflat : ds.flatten.length = k * w := by
      have hmem : ∀ b ∈ ds, b.length = w :=
        Cbc.decrypt_mem (S := ofWidth w) (fun a ha b hb => length_xorBlock ha hb) hD iv _
          hiv (mem_blocks_length w hk)
      rw [length_flatten_of_width hmem, hds, Cbc.length_decrypt, length_blocks]
    have hcur : blockAt w st'.cipher_text (k * w) = b := by
      rw [ih1, blockAt_append _ hflat]; rfl
    have hdiv : k * w / w = k := Nat.mul_div_cancel _ hw
    have hblocks : blocks w (k + 1) buf = blocks w k buf ++ [b] := by
      rw [blocks_add w k 1]; simp [blocks, hb, blockAt]
    have hchain : ∀ x, x.length = w → xorAt w (storeAt w st'.cipher_text (k * w) (D b)) (k * w) x =
        ds.flatten ++ (xorBlock (D b) x ++ buf.drop ((k + 1) * w)) := by
      intro x hx
      rw [ih1, storeAt_append _ _ hflat, xorAt, blockAt_append _ hflat, storeAt_append _ _ hflat,
        List.take_left' (hD b hblen), List.drop_left' (hD b hblen), List.drop_drop,
        ← Nat.add_one_mul]
    have hclen : (Cbc.chain iv (blocks w k buf)).length = w :=
      Cbc.chain_mem (S := ofWidth w) hiv (mem_blocks_length w hk)
    -- the block mixed in is the chain, whichever buffer holds it
    have hprev : (if k * w = 0 then iv else if (k % 2 == 0) then st'.prev_block_odd
        else st'.prev_block_even) = Cbc.chain iv (blocks w k buf) := by
      rcases Nat.eq_zero_or_pos k with rfl | hpos
      · simp [blocks]
      · have hne : k * w ≠ 0 := (Nat.mul_pos hpos hw).ne'
        rw [if_neg hne, ← ih2 hpos]
        rcases Nat.mod_two_eq_zero_or_one k with h | h
        · have h' : ¬ (k - 1) % 2 = 0 := by omega
          simp [h, h']
        · have h' : (k - 1) % 2 = 0 := by omega
          simp [h, h']
    rw [hst, hblocks, Cbc.decrypt_append, Cbc.chain_concat, ← hds]
    rcases Nat.mod_two_eq_zero_or_one k with h | h
    · simp only [cbcDecryptRound, hdiv, h, beq_self_eq_true, if_true, hcur] at hprev ⊢
      refine ⟨?_, fun _ => by simp [h]⟩
      rw [hprev, hchain _ hclen]
      simp [Cbc.decrypt]
    · have h1 : ((1 : ℕ) == 0) = false := rfl
      simp only [cbcDecryptRound, hdiv, h, h1, Bool.false_eq_true, if_false, hcur] at hprev ⊢
      refine ⟨?_, fun _ => by simp [h]⟩
      rw [hprev, hchain _ hclen]
      simp [Cbc.decrypt]

end Loops

section Functions

variable {tf : Threefish} {key : ThreefishKey} {iv buf : List Word} {n : ℕ}

/-- `encryptInPlace` on `n ≥ 1` blocks is the mode on them. -/
theorem encryptInPlace_eq (hiv : iv.length = key.stateSize.words) (hn : 0 < n)
    (hlen : n * key.stateSize.words ≤ buf.length) :
    encryptInPlace tf key iv buf n =
      (Cbc.encrypt xorBlock (tf.threefishEncryptBlockWords key) iv
        (blocks key.stateSize.words n buf)).flatten ++ buf.drop (n * key.stateSize.words) := by
  have hE := tf.encrypt_length key
  obtain ⟨k, rfl⟩ : ∃ k, n = k + 1 := ⟨n - 1, by omega⟩
  cases hs : key.stateSize <;> simp only [hs] at hiv hlen hE <;> rw [encryptInPlace, hs] <;>
    exact cbcEncrypt_rounds hE hiv k hlen (by decide)

/-- `decryptInPlace` on `n` blocks is the mode on them. -/
theorem decryptInPlace_eq (hiv : iv.length = key.stateSize.words)
    (hlen : n * key.stateSize.words ≤ buf.length) :
    decryptInPlace tf key iv buf n =
      (Cbc.decrypt xorBlock (tf.threefishDecryptBlockWords key) iv
        (blocks key.stateSize.words n buf)).flatten ++ buf.drop (n * key.stateSize.words) := by
  have hD := tf.decrypt_length key
  cases hs : key.stateSize <;> simp only [hs] at hiv hlen hD <;> rw [decryptInPlace, hs] <;>
    exact (cbcDecrypt_rounds hD hiv (by decide) n hlen).1

end Functions

end Threefizer
