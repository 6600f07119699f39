/-
# The mode in the buffer

What `encryptInPlace` and `decryptInPlace` leave in the buffer, for their
assignments as the source writes them out (`CbcUnrolled`).

Decryption overwrites the ciphertext as it goes, and still block `j` of the
result is the deciphered block `j` of what the buffer held, XORed with block
`j - 1` of what it held (`decryptInPlace_textbook`): the initialization
vector shows in block 0 only, a ciphertext block in its own block and in the
next.

Each of the two undoes the other (`encryptInPlace_decryptInPlace`). That
decryption undoes encryption of a single block is enough for both directions:
there are finitely many blocks, so encryption under one key is a permutation
of them (`Threefish.Inverts.symm`).
-/
import Threefizer.CbcUnrolled
import Threefizer.Skein3fish
import Mathlib.Data.FinEnum
import Mathlib.Data.Set.Finite.List

namespace Threefizer

open Words

/-! ### One block -/

/-- Encryption of a block undoes decryption under a key whose decryption
undoes encryption. -/
theorem Threefish.Inverts.symm {tf : Threefish} {key : ThreefishKey} (hinv : tf.Inverts key) {b : List Word}
    (hb : b.length = key.stateSize.words) :
    tf.threefishEncryptBlockWords key (tf.threefishDecryptBlockWords key b) = b := by
  have hfin : (ofWidth key.stateSize.words).Finite := List.finite_length_eq Word _
  have hinj : Set.InjOn (tf.threefishEncryptBlockWords key) (ofWidth key.stateSize.words) :=
    fun a ha b hb hab => by rw [← hinv a ha, hab, hinv b hb]
  obtain ⟨a, ha, rfl⟩ := ((hfin.injOn_iff_bijOn_of_mapsTo (tf.encrypt_length key)).mp hinj).surjOn hb
  rw [hinv a ha]

/-! ### A buffer and its blocks -/

section Buffer

variable {w n : ℕ} {buf buf' : List Word}

theorem getElem?_blocks_blockAt {j : ℕ} (hj : j < n) : (blocks w n buf)[j]? = some (blockAt w buf (j * w)) :=
  getElem?_blocks w buf hj

/-- A word of the buffer, in its block. -/
theorem getElem?_blockAt (hw : 0 < w) (buf : List Word) (i : ℕ) :
    (blockAt w buf (i / w * w))[i % w]? = buf[i]? := by
  have hi : i / w * w + i % w = i := Nat.div_add_mod' i w
  rw [blockAt, List.getElem?_take_of_lt (Nat.mod_lt i hw), List.getElem?_drop, hi]

theorem blockAt_congr {i : ℕ} (h : ∀ k, i ≤ k → k < i + w → buf'[k]? = buf[k]?) :
    blockAt w buf' i = blockAt w buf i := by
  refine List.ext_getElem? fun k => ?_
  rcases Nat.lt_or_ge k w with hk | hk
  · rw [blockAt, blockAt, List.getElem?_take_of_lt hk, List.getElem?_take_of_lt hk, List.getElem?_drop,
      List.getElem?_drop, h _ (by omega) (by omega)]
  · rw [blockAt, blockAt, List.getElem?_take_eq_none hk, List.getElem?_take_eq_none hk]

/-- Index `i` lies in block `i / w`. -/
theorem div_bounds (hw : 0 < w) (i : ℕ) : i / w * w ≤ i ∧ i < i / w * w + w :=
  ⟨Nat.div_mul_le_self i w, Nat.lt_div_mul_add hw⟩

/-- Blocks stored in front of a rest, read back. -/
theorem cut_flatten {bs : List (List Word)} (hbs : ∀ b ∈ bs, b.length = w) (hn : bs.length = n)
    (rest : List Word) : blocks w n (bs.flatten ++ rest) = bs ∧ (bs.flatten ++ rest).drop (n * w) = rest ∧
      n * w ≤ (bs.flatten ++ rest).length := by
  have hflat : bs.flatten.length = n * w := by rw [length_flatten_of_width hbs, hn]
  refine ⟨?_, List.drop_left' hflat, by rw [List.length_append, hflat]; omega⟩
  rw [blocks_append_left _ _ hflat.ge, ← hn, blocks_flatten hbs]

/-- Words behind the blocks are the words of the buffer the rest was taken from. -/
theorem getElem?_rest {bs : List (List Word)} (hbs : ∀ b ∈ bs, b.length = w) (hn : bs.length = n)
    (buf : List Word) {i : ℕ} (hi : n * w ≤ i) : (bs.flatten ++ buf.drop (n * w))[i]? = buf[i]? := by
  have h := congrArg (·[i - n * w]?) (cut_flatten hbs hn (buf.drop (n * w))).2.1
  simp only [List.getElem?_drop] at h
  rwa [Nat.add_sub_cancel' hi] at h

end Buffer

namespace Unrolled

section Decrypt

variable {tf : Threefish} {key : ThreefishKey} {iv buf : List Word} {n : ℕ}

/-- `decryptInPlace` leaves the deciphered blocks and the rest of the buffer. -/
theorem decryptInPlace_stored (hiv : iv.length = key.stateSize.words)
    (hlen : n * key.stateSize.words ≤ buf.length) :
    ∃ ds, ds = Cbc.decrypt xorBlock (tf.threefishDecryptBlockWords key) iv (blocks key.stateSize.words n buf) ∧
      (∀ b ∈ ds, b.length = key.stateSize.words) ∧ ds.length = n ∧
      decryptInPlace tf key iv buf n = ds.flatten ++ buf.drop (n * key.stateSize.words) := by
  refine ⟨_, rfl, ?_, by rw [Cbc.length_decrypt, length_blocks], ?_⟩
  · exact Cbc.decrypt_mem (S := ofWidth key.stateSize.words) (fun _ ha _ hb => length_xorBlock ha hb)
      (tf.decrypt_length key) iv _ hiv (mem_blocks_length _ hlen)
  · rw [decryptInPlace_eq_blocks hiv hlen, decryptInPlace_eq hiv hlen]

/-- `encryptInPlace` leaves the enciphered blocks and the rest of the buffer. -/
theorem encryptInPlace_stored (hiv : iv.length = key.stateSize.words) (hn : 0 < n)
    (hlen : n * key.stateSize.words ≤ buf.length) :
    ∃ cs, cs = Cbc.encrypt xorBlock (tf.threefishEncryptBlockWords key) iv (blocks key.stateSize.words n buf) ∧
      (∀ b ∈ cs, b.length = key.stateSize.words) ∧ cs.length = n ∧
      encryptInPlace tf key iv buf n = cs.flatten ++ buf.drop (n * key.stateSize.words) := by
  refine ⟨_, rfl, ?_, by rw [Cbc.length_encrypt, length_blocks], ?_⟩
  · exact Cbc.encrypt_mem (S := ofWidth key.stateSize.words) (fun _ ha _ hb => length_xorBlock ha hb)
      (tf.encrypt_length key) iv _ hiv (mem_blocks_length _ hlen)
  · rw [encryptInPlace_eq_blocks hiv hn hlen, encryptInPlace_eq hiv hn hlen]

/-! ### Textbook decryption -/

theorem decryptInPlace_block (hiv : iv.length = key.stateSize.words)
    (hlen : n * key.stateSize.words ≤ buf.length) {j : ℕ} (hj : j < n) :
    blockAt key.stateSize.words (decryptInPlace tf key iv buf n) (j * key.stateSize.words) =
      xorBlock (tf.threefishDecryptBlockWords key (blockAt key.stateSize.words buf (j * key.stateSize.words)))
        (if j = 0 then iv else blockAt key.stateSize.words buf ((j - 1) * key.stateSize.words)) := by
  have hprev : (iv :: blocks key.stateSize.words n buf)[j]? =
      some (if j = 0 then iv else blockAt key.stateSize.words buf ((j - 1) * key.stateSize.words)) := by
    cases j with
    | zero => rfl
    | succ j => rw [List.getElem?_cons_succ, getElem?_blocks_blockAt (by omega)]; rfl
  obtain ⟨ds, hds, hmem, hcount, hout⟩ := @decryptInPlace_stored tf key iv buf n hiv hlen
  have h : some (blockAt key.stateSize.words (decryptInPlace tf key iv buf n) (j * key.stateSize.words)) =
      ds[j]? := by
    rw [← getElem?_blocks_blockAt hj, hout, (cut_flatten hmem hcount _).1]
  rw [hds, Cbc.decrypt_eq_zipWith, List.getElem?_zipWith, getElem?_blocks_blockAt hj, hprev] at h
  exact Option.some.inj h

theorem decryptInPlace_rest (hiv : iv.length = key.stateSize.words)
    (hlen : n * key.stateSize.words ≤ buf.length) {i : ℕ} (hi : n * key.stateSize.words ≤ i) :
    (decryptInPlace tf key iv buf n)[i]? = buf[i]? := by
  obtain ⟨ds, -, hmem, hcount, hout⟩ := @decryptInPlace_stored tf key iv buf n hiv hlen
  rw [hout]
  exact getElem?_rest hmem hcount buf hi

/-- Word `i` of the result, for two buffers that agree on what it is made of. -/
theorem decryptInPlace_congr {iv' buf' : List Word} (hiv : iv.length = key.stateSize.words)
    (hiv' : iv'.length = key.stateSize.words) (hlen : n * key.stateSize.words ≤ buf.length)
    (hlen' : n * key.stateSize.words ≤ buf'.length) {i j : ℕ} (hj : i / key.stateSize.words = j)
    (hblock : blockAt key.stateSize.words buf' (j * key.stateSize.words) =
      blockAt key.stateSize.words buf (j * key.stateSize.words))
    (hprev : (if j = 0 then iv' else blockAt key.stateSize.words buf' ((j - 1) * key.stateSize.words)) =
      if j = 0 then iv else blockAt key.stateSize.words buf ((j - 1) * key.stateSize.words))
    (hrest : n * key.stateSize.words ≤ i → buf'[i]? = buf[i]?) :
    (decryptInPlace tf key iv' buf' n)[i]? = (decryptInPlace tf key iv buf n)[i]? := by
  have hw := key.stateSize.words_pos
  rcases Nat.lt_or_ge j n with hn | hn
  · have hsame : blockAt key.stateSize.words (decryptInPlace tf key iv' buf' n) (j * key.stateSize.words) =
        blockAt key.stateSize.words (decryptInPlace tf key iv buf n) (j * key.stateSize.words) := by
      rw [decryptInPlace_block hiv' hlen' hn, decryptInPlace_block hiv hlen hn, hblock, hprev]
    rw [← getElem?_blockAt hw (decryptInPlace tf key iv' buf' n),
      ← getElem?_blockAt hw (decryptInPlace tf key iv buf n), hj, hsame]
  · have hi : n * key.stateSize.words ≤ i :=
      le_trans (Nat.mul_le_mul_right _ hn) (hj ▸ Nat.div_mul_le_self i _)
    rw [decryptInPlace_rest hiv' hlen' hi, decryptInPlace_rest hiv hlen hi, hrest hi]

/-- **Decryption in place is the mode.** Block `j` of the result is the
deciphered block `j` of what the buffer held, XORed with the block before it
or with the initialization vector, and every word behind the `n` blocks is as
it was. Another vector gives the same words from block 1 on; another
ciphertext block `j` gives the same words outside the blocks `j` and `j + 1`. -/
theorem decryptInPlace_textbook (tf : Threefish) (key : ThreefishKey) {iv buf : List Word} {n : ℕ}
    (hiv : iv.length = key.stateSize.words) (hlen : n * key.stateSize.words ≤ buf.length) :
    let w := key.stateSize.words
    let D := tf.threefishDecryptBlockWords key
    let out := decryptInPlace tf key iv buf n
    (∀ j < n, blockAt w out (j * w) =
      xorBlock (D (blockAt w buf (j * w))) (if j = 0 then iv else blockAt w buf ((j - 1) * w))) ∧
    (∀ i, n * w ≤ i → out[i]? = buf[i]?) ∧
    (∀ iv' : List Word, iv'.length = w → ∀ i, w ≤ i → (decryptInPlace tf key iv' buf n)[i]? = out[i]?) ∧
    (∀ (j : ℕ) (buf' : List Word), buf'.length = buf.length →
      (∀ i, ¬ (j * w ≤ i ∧ i < (j + 1) * w) → buf'[i]? = buf[i]?) →
      ∀ i, ¬ (j * w ≤ i ∧ i < (j + 2) * w) → (decryptInPlace tf key iv buf' n)[i]? = out[i]?) := by
  intro w D out
  have hw : 0 < w := key.stateSize.words_pos
  refine ⟨fun j hj => decryptInPlace_block hiv hlen hj, fun i hi => decryptInPlace_rest hiv hlen hi, ?_, ?_⟩
  · intro iv' hiv' i hi
    have hpos : i / w ≠ 0 := (Nat.div_pos hi hw).ne'
    exact decryptInPlace_congr hiv hiv' hlen hlen rfl rfl (by rw [if_neg hpos, if_neg hpos]) fun _ => rfl
  · intro j buf' hbuf' hsame i hi
    -- blocks other than block `j` are the same in both buffers
    have hblock : ∀ k, k ≠ j → blockAt w buf' (k * w) = blockAt w buf (k * w) := fun k hk => by
      refine blockAt_congr fun m hm hm' => hsame m ?_
      have hm'' : m < (k + 1) * w := by rw [Nat.add_one_mul]; omega
      rintro ⟨h1, h2⟩
      have hkj : k < j + 1 := Nat.lt_of_mul_lt_mul_right (lt_of_le_of_lt hm h2)
      have hjk : j < k + 1 := Nat.lt_of_mul_lt_mul_right (lt_of_le_of_lt h1 hm'')
      omega
    have hout : i / w ≠ j ∧ i / w ≠ j + 1 := by
      obtain ⟨h1, h2⟩ := div_bounds hw i
      rw [Nat.add_mul] at hi
      constructor <;> rintro h <;> rw [h] at h1 h2
      · omega
      · rw [Nat.add_one_mul] at h1 h2
        omega
    refine decryptInPlace_congr hiv hiv hlen (hbuf'.symm ▸ hlen) rfl (hblock _ hout.1) ?_ fun _ => hsame i ?_
    · by_cases h0 : i / w = 0
      · rw [if_pos h0, if_pos h0]
      · have hprev : i / w - 1 ≠ j := fun h =>
          hout.2 (by rw [← h, Nat.sub_add_cancel (Nat.pos_of_ne_zero h0)])
        rw [if_neg h0, if_neg h0]
        exact hblock _ hprev
    · rw [Nat.add_mul] at hi ⊢
      omega

/-- Three blocks: block 1 is mixed with what block 0 of the buffer was. -/
theorem decryptInPlace_textbook_three : let key : ThreefishKey := ⟨.Skein256, [1, 2, 3, 4], []⟩
    let buf : List Word := [5, 6, 7, 8, 1, 2, 3, 4, 9, 10, 11, 12, 13]
    blockAt 4 (decryptInPlace Skein3fish.threefish key [9, 9, 9, 9] buf 3) 4 =
      xorBlock (Skein3fish.threefish.threefishDecryptBlockWords key [1, 2, 3, 4]) [5, 6, 7, 8] :=
  (decryptInPlace_textbook Skein3fish.threefish ⟨.Skein256, [1, 2, 3, 4], []⟩ rfl (by decide)).1 1 (by decide)

/-! ### Inverse to each other -/

/-- **Encryption and decryption in place undo each other**, in both orders,
and neither touches a word behind the `n` blocks. -/
theorem encryptInPlace_decryptInPlace (tf : Threefish) (key : ThreefishKey) (hinv : tf.Inverts key)
    {iv buf : List Word} {n : ℕ} (hiv : iv.length = key.stateSize.words) (hn : 0 < n)
    (hlen : n * key.stateSize.words ≤ buf.length) :
    decryptInPlace tf key iv (encryptInPlace tf key iv buf n) n = buf ∧
      encryptInPlace tf key iv (decryptInPlace tf key iv buf n) n = buf ∧
      ∀ i, n * key.stateSize.words ≤ i →
        (encryptInPlace tf key iv buf n)[i]? = buf[i]? ∧ (decryptInPlace tf key iv buf n)[i]? = buf[i]? := by
  have hmix : ∀ a ∈ ofWidth key.stateSize.words, ∀ b ∈ ofWidth key.stateSize.words,
      xorBlock a b ∈ ofWidth key.stateSize.words := fun _ ha _ hb => length_xorBlock ha hb
  have hcancel : ∀ a ∈ ofWidth key.stateSize.words, ∀ b ∈ ofWidth key.stateSize.words,
      xorBlock (xorBlock a b) b = a := fun _ ha _ hb => xorBlock_cancel (ha.trans hb.symm)
  have hblocks := mem_blocks_length key.stateSize.words hlen
  have hwhole : (blocks key.stateSize.words n buf).flatten ++ buf.drop (n * key.stateSize.words) = buf := by
    rw [flatten_blocks, List.take_append_drop]
  obtain ⟨cs, hcs, hcmem, hccount, henc⟩ := @encryptInPlace_stored tf key iv buf n hiv hn hlen
  obtain ⟨ds, hds, hdmem, hdcount, hdec⟩ := @decryptInPlace_stored tf key iv buf n hiv hlen
  refine ⟨?_, ?_, fun i hi => ⟨?_, ?_⟩⟩
  · obtain ⟨hcut, hrest, hfit⟩ := cut_flatten hcmem hccount (buf.drop (n * key.stateSize.words))
    obtain ⟨ds', hds', -, -, hdec'⟩ := @decryptInPlace_stored tf key iv _ n hiv hfit
    have hback : ds' = blocks key.stateSize.words n buf := by
      rw [hds', hcut, hcs]
      exact Cbc.decrypt_encrypt hmix hcancel (tf.encrypt_length key) hinv iv _ hiv hblocks
    calc decryptInPlace tf key iv (encryptInPlace tf key iv buf n) n
        = ds'.flatten ++ buf.drop (n * key.stateSize.words) := by rw [henc, hdec', hrest]
      _ = buf := by rw [hback, hwhole]
  · obtain ⟨hcut, hrest, hfit⟩ := cut_flatten hdmem hdcount (buf.drop (n * key.stateSize.words))
    obtain ⟨cs', hcs', -, -, henc'⟩ := @encryptInPlace_stored tf key iv _ n hiv hn hfit
    have hback : cs' = blocks key.stateSize.words n buf := by
      rw [hcs', hcut, hds]
      exact Cbc.encrypt_decrypt hcancel (tf.decrypt_length key) (fun _ ha => hinv.symm ha) iv _ hiv hblocks
    calc encryptInPlace tf key iv (decryptInPlace tf key iv buf n) n
        = cs'.flatten ++ buf.drop (n * key.stateSize.words) := by rw [hdec, henc', hrest]
      _ = buf := by rw [hback, hwhole]
  · rw [henc, getElem?_rest hcmem hccount buf hi]
  · rw [hdec, getElem?_rest hdmem hdcount buf hi]

/-- Two blocks and one word more. -/
theorem encryptInPlace_decryptInPlace_two : let key : ThreefishKey := ⟨.Skein256, [1, 2, 3, 4], []⟩
    let buf : List Word := [5, 6, 7, 8, 1, 2, 3, 4, 9]
    decryptInPlace Skein3fish.threefish key [9, 9, 9, 9]
      (encryptInPlace Skein3fish.threefish key [9, 9, 9, 9] buf 2) 2 = buf :=
  (encryptInPlace_decryptInPlace Skein3fish.threefish ⟨.Skein256, [1, 2, 3, 4], []⟩
    (Skein3fish.threefish_inverts _) rfl (by decide) (by decide)).1

end Decrypt

end Unrolled
end Threefizer
