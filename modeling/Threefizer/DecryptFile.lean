/-
# The decrypted file

`decryptFile` runs the four threads of a decryption one after the other. The
plaintext of an encrypted file is one CBC decryption of all that lies between
the header and the tag, padded to whole blocks, under the last block of the
header (`Job.plaintext`); the chain buffers carry the last ciphertext block
from chunk to chunk (`decryptQueue_pieces`), and the writer keeps the number
of bytes the header says (`WriteThread.asyncWrite_take`).
-/
import Threefizer.AuthThread
import Threefizer.DecryptThread
import Threefizer.EncryptFile

namespace Threefizer

open Words Queue

/-- What a decryption ends with: the size the header check found, the error
word and the bytes written. -/
structure Decryption where
  file_size : Option ℕ
  error : Option Error
  written : List Byte
  deriving DecidableEq, Repr

/-- A decryption whose functions are run one after the other; none when one
does not return. After an error the loops of the later ones end at once. -/
def decryptFile (J : Job) : Option Decryption :=
  ((decryptReader J.file J.state_size J.max_chunk).queueFile J.file.length).bind fun cs =>
  (AuthThread.authenticateMAC J.tf J.tf_key J.mac_context cs).bind fun a =>
  match a.error with
  | some e => some ⟨a.file_size, some e, []⟩
  | none =>
    (DecryptThread.decryptQueue J.tf J.tf_key (DecryptThread.DecryptState.init J.tf_key) a.outs).bind fun ds =>
    (WriteThread.asyncWrite a.file_size 0 ds).map fun bs => ⟨a.file_size, none, bs⟩

/-! ### The parts of an encrypted file -/

namespace Job

variable (J : Job)

/-- The ciphertext of the data, in blocks; a last block that is not whole is
padded. -/
def dataBlocks : List (List Word) := blocksOf J.state_size (padded (dataPart J.file J.state_size) J.state_size)

/-- The last block of the header. -/
def headerChain : List Word := (wordsOf (headerPart J.file J.state_size)).drop J.state_size.words

/-- The CBC decryption of the data. -/
def plaintext : List Byte :=
  bytesOf (Cbc.decrypt xorBlock (J.tf.threefishDecryptBlockWords J.tf_key) J.headerChain J.dataBlocks).flatten

/-- What the tag has to be the MAC of: the header and the data. -/
def authenticated : List Byte :=
  headerPart J.file J.state_size ++ padded (dataPart J.file J.state_size) J.state_size

/-- The stored tag. -/
def storedTag : List Word := wordsOf (macPart J.file J.state_size)

/-- The size in the header, if the header is valid. -/
def headerSize : Option ℕ := AuthThread.headerSize J.tf J.tf_key (checkChunk J.file J.state_size)

end Job

/-! ### The threads on the plan -/

section Decrypt

open DecryptThread

variable {tf : Threefish} {key : ThreefishKey}

/-- The chain for the next chunk. -/
def nextChain (st : DecryptState) : List Word :=
  if st.decrypt_count % 2 = 0 then st.chain_even else st.chain_odd

variable (tf) in
/-- A data chunk is its blocks in the mode, with the chain of the chunk before. -/
theorem decryptChunk_data {a : Action} {p : List Byte} {st : DecryptState}
    (hchain : (nextChain st).length = key.stateSize.words) (hp : 0 < p.length)
    (h32 : p.length + key.stateSize.bytes ≤ 2 ^ 32) :
    let s := key.stateSize
    let cs := blocksOf s (padded p s)
    let bs := Cbc.decrypt xorBlock (tf.threefishDecryptBlockWords key) (nextChain st) cs
    ∃ st', decryptChunk tf key st (dataChunk a s p) = some (⟨a, bs.flatten, (padded p s).length⟩, st') ∧
      st'.header = st.header ∧ nextChain st' = Cbc.chain (nextChain st) cs ∧
      (nextChain st').length = s.words ∧ bs.flatten ≠ [] ∧ (padded p s).length = 8 * bs.flatten.length := by
  intro s cs bs
  have hN := blockCount_pos s hp
  have hd := dvd_length_padded p s
  have hcl : ∀ x ∈ cs, x.length = s.words := mem_blocksOf hd
  have hclen : cs.length = blockCount p.length s := length_blocksOf_padded p s
  have hcne : cs ≠ [] := fun h => by rw [h] at hclen; simp at hclen; omega
  have hbl : ∀ x ∈ bs, x.length = s.words :=
    Cbc.decrypt_mem (S := ofWidth s.words) (fun a ha b hb => length_xorBlock ha hb)
      (tf.decrypt_length key) _ _ hchain hcl
  have hlen : bs.length = blockCount p.length s := by simp only [bs, Cbc.length_decrypt]; exact hclen
  have hflat : bs.flatten.length = blockCount p.length s * s.words := by
    rw [length_flatten_of_width hbl, hlen]
  have hcount : getNumBlocks (blockCount p.length s * s.bytes) s = some (blockCount p.length s) := by
    rw [getNumBlocks_eq (blockCount_mul_fits h32), blockCount_mul]
  have hwords : (wordsOf (padded p s)).length = blockCount p.length s * s.words := by
    rw [length_wordsOf_blocks hd, length_padded, Nat.mul_div_cancel _ s.bytes_pos]
  have hdec : decryptInPlace tf key (nextChain st) (wordsOf (padded p s)) (blockCount p.length s) =
      bs.flatten := by
    rw [decryptInPlace_eq hchain hwords.ge, ← hwords, List.drop_length, List.append_nil]
    simp only [bs, cs, blocksOf, length_padded, Nat.mul_div_cancel _ s.bytes_pos]
    rfl
  have hlast : getChainInBuffer (wordsOf (padded p s)) (blockCount p.length s) key.stateSize =
      Cbc.chain (nextChain st) cs := by
    rw [← hclen, ← flatten_blocksOf hd]
    exact getChainInBuffer_flatten hcne hcl
  have hmem : (Cbc.chain (nextChain st) cs).length = s.words :=
    Cbc.chain_mem (S := ofWidth s.words) hchain hcl
  -- the chain of this chunk goes into the buffer of the other parity
  set even := st.decrypt_count % 2 == 0 with heven
  set chain := Cbc.chain (nextChain st) cs with hch
  set st' : DecryptState := { st with
    chain_even := if even then st.chain_even else chain
    chain_odd := if even then chain else st.chain_odd
    decrypt_count := add64 st.decrypt_count 1 } with hst'
  have hnext : nextChain st' = chain := by
    have hpar : st'.decrypt_count % 2 = (st.decrypt_count + 1) % 2 := by
      simp only [hst', add64]; omega
    unfold nextChain
    rcases Nat.mod_two_eq_zero_or_one st.decrypt_count with h | h
    · have he : even = true := by rw [heven, h]; rfl
      rw [if_neg (by omega), hst', he]; rfl
    · have he : even = false := by rw [heven, h]; rfl
      rw [if_pos (by omega), hst', he]; rfl
  have hsel : (if even then st.chain_even else st.chain_odd) = nextChain st := by
    unfold nextChain
    rcases Nat.mod_two_eq_zero_or_one st.decrypt_count with h | h <;> simp [heven, h]
  refine ⟨st', ?_, rfl, hnext, hnext.symm ▸ hmem, ?_, ?_⟩
  · simp only [decryptChunk, dataChunk]
    rw [hcount]
    simp only [Option.map_some, ← heven, hsel, hdec, hlast, length_padded]
    rw [hst']
  · intro h
    rw [h, List.length_nil] at hflat
    have := Nat.mul_pos hN s.words_pos
    omega
  · rw [length_padded, hflat, s.bytes_eq, Nat.mul_left_comm]

/-- Pieces decrypted one after the other are one decryption. -/
theorem decryptQueue_pieces {a : Action} (ha : a ≠ .DONE) : ∀ (ps : List (List Byte)) (st : DecryptState),
    st.header = false → (nextChain st).length = key.stateSize.words →
    (∀ p ∈ ps, 0 < p.length ∧ p.length + key.stateSize.bytes ≤ 2 ^ 32) →
    ∃ es, decryptQueue tf key st (ps.map (dataChunk a key.stateSize) ++ [doneChunk]) =
        some (es ++ [doneChunk]) ∧
      (∀ e ∈ es, e.action = a ∧ Whole e) ∧
      es.flatMap Chunk.data = (Cbc.decrypt xorBlock (tf.threefishDecryptBlockWords key) (nextChain st)
        (ps.flatMap fun p => blocksOf key.stateSize (padded p key.stateSize))).flatten
  | [], st, _, _, _ => ⟨[], by simp [decryptQueue], nofun, by simp [Cbc.decrypt]⟩
  | p :: ps, st, hh, hc, hps => by
    obtain ⟨hp, h32⟩ := hps p List.mem_cons_self
    obtain ⟨st', he, hh', hch, hc', hne, hsz⟩ := decryptChunk_data tf (a := a) hc hp h32
    obtain ⟨es, hq, hes, hflat⟩ := decryptQueue_pieces ha ps st' (hh'.trans hh) hc'
      fun q hq => hps q (List.mem_cons_of_mem _ hq)
    refine ⟨⟨a, (Cbc.decrypt xorBlock (tf.threefishDecryptBlockWords key) (nextChain st)
      (blocksOf key.stateSize (padded p key.stateSize))).flatten,
      (padded p key.stateSize).length⟩ :: es, ?_, ?_, ?_⟩
    · rw [List.map_cons, List.cons_append, decryptQueue, dataChunk_action, if_neg ha, if_neg (by simp [hh]), he]
      simp only [Option.bind_some, hq, Option.map_some, List.cons_append]
    · intro e he
      rcases List.mem_cons.mp he with rfl | he
      · exact ⟨rfl, hne, hsz⟩
      · exact hes e he
    · rw [List.flatMap_cons, List.flatMap_cons, Cbc.decrypt_append, List.flatten_append, hflat, hch]

end Decrypt

/-! ### The whole file -/

section Job

variable {J : Job}

theorem out_action_ne (J : Job) :
    J.mac_context.out_action ≠ .MAC ∧ J.mac_context.out_action ≠ .DONE := by
  simp only [Job.mac_context, InitMacCtx]; split <;> decide

theorem checkChunk_bytes (hbig : isGreaterThanThreeBlocks J.file.length J.state_size = true) :
    padded (headerPart J.file J.state_size) J.state_size = headerPart J.file J.state_size :=
  padded_of_dvd (length_headerPart hbig ▸ Nat.dvd_mul_left _ _)

/-- The chunks that are MACed are the authenticated bytes. -/
theorem flatMap_bytes_plan (hbig : isGreaterThanThreeBlocks J.file.length J.state_size = true) :
    (checkChunk J.file J.state_size :: macPlan J.file J.state_size J.max_chunk).flatMap Chunk.bytes =
      J.authenticated := by
  rw [List.flatMap_cons, checkChunk, dataChunk_bytes, checkChunk_bytes hbig, macPlan, List.flatMap_map]
  simp only [dataChunk_bytes]
  rw [flatMap_padded_pieces J.max_chunk_pos J.max_chunk_dvd]
  rfl

theorem length_wordsOf_headerPart (hbig : isGreaterThanThreeBlocks J.file.length J.state_size = true) :
    (wordsOf (headerPart J.file J.state_size)).length = 2 * J.state_size.words := by
  rw [length_wordsOf_blocks (length_headerPart hbig ▸ Nat.dvd_mul_left _ _), length_headerPart hbig,
    Nat.mul_div_cancel _ J.state_size.bytes_pos]

theorem length_headerChain (hbig : isGreaterThanThreeBlocks J.file.length J.state_size = true) :
    J.headerChain.length = J.state_size.words := by
  rw [Job.headerChain, List.length_drop, length_wordsOf_headerPart hbig]; omega

theorem length_plaintext (hbig : isGreaterThanThreeBlocks J.file.length J.state_size = true) :
    J.plaintext.length = (padded (dataPart J.file J.state_size) J.state_size).length := by
  have hbl : ∀ x ∈ Cbc.decrypt xorBlock (J.tf.threefishDecryptBlockWords J.tf_key) J.headerChain J.dataBlocks,
      x.length = J.state_size.words :=
    Cbc.decrypt_mem (S := ofWidth J.state_size.words) (fun a ha b hb => length_xorBlock ha hb)
      (J.tf.decrypt_length J.tf_key) _ _ (length_headerChain hbig) (mem_blocksOf (dvd_length_padded _ _))
  rw [Job.plaintext, length_bytesOf, length_flatten_of_width hbl, Cbc.length_decrypt, Job.dataBlocks,
    length_blocksOf_padded, length_padded, J.state_size.bytes_eq, Nat.mul_left_comm]

theorem macChunk_data (hbig : isGreaterThanThreeBlocks J.file.length J.state_size = true) :
    (macChunk J.file J.state_size).data = J.storedTag := by
  show wordsOf (padded _ _) = _
  rw [padded_of_dvd (by rw [length_macPart hbig])]
  rfl

theorem length_storedTag (hbig : isGreaterThanThreeBlocks J.file.length J.state_size = true) :
    J.storedTag.length = J.state_size.words := by
  rw [Job.storedTag, length_wordsOf_blocks (by rw [length_macPart hbig]), length_macPart hbig,
    Nat.div_self J.state_size.bytes_pos, Nat.one_mul]

/-- The chunk with the stored tag is accepted against a tag just when it is that tag. -/
theorem accepts_macChunk (hbig : isGreaterThanThreeBlocks J.file.length J.state_size = true)
    (a : List Byte) :
    AuthThread.tagsEqual J.mac_context (J.sk.tag J.state_size J.mac_key a)
      (macChunk J.file J.state_size).data = true ↔
    J.storedTag = J.sk.tag J.state_size J.mac_key a := by
  have hdigest : J.mac_context.digest_byte_size / 8 = J.state_size.words := by
    show J.state_size.bytes / 8 = _
    rw [J.state_size.bytes_eq, Nat.mul_div_cancel_left _ (by decide)]
  rw [macChunk_data hbig]
  constructor
  · intro h
    exact (AuthThread.eq_of_tagsEqual (by rw [hdigest]; exact J.sk.final_length _ _ _)
      (by rw [hdigest, length_storedTag hbig]) h).symm
  · intro h
    rw [h]
    exact AuthThread.tagsEqual_self _

/-- The chunks `decryptQueue` puts out for the whole file. -/
theorem decryptQueue_plan (hbig : isGreaterThanThreeBlocks J.file.length J.state_size = true) :
    ∃ es, DecryptThread.decryptQueue J.tf J.tf_key (DecryptThread.DecryptState.init J.tf_key)
        ((checkChunk J.file J.state_size :: macPlan J.file J.state_size J.max_chunk).map
          (AuthThread.passed J.mac_context) ++ [doneChunk]) = some (es ++ [doneChunk]) ∧
      (∀ e ∈ es, e.action ≠ .DONE ∧ Whole e) ∧ es.flatMap Chunk.bytes = J.plaintext := by
  have hact := (out_action_ne J).2
  have hchain := length_headerChain hbig
  set st := DecryptThread.stripHeader J.tf_key (DecryptThread.DecryptState.init J.tf_key)
    (AuthThread.passed J.mac_context (checkChunk J.file J.state_size)) with hst
  have hnext : nextChain st = J.headerChain := by
    show getChainInBuffer (wordsOf (padded (headerPart J.file J.state_size) J.state_size)) 2 J.state_size = _
    rw [checkChunk_bytes hbig, getChainInBuffer, blockAt, Nat.mul_one]
    exact List.take_of_length_le hchain.le
  have hfit : ∀ p ∈ pieces J.max_chunk (dataPart J.file J.state_size),
      0 < p.length ∧ p.length + J.tf_key.stateSize.bytes ≤ 2 ^ 32 := fun p hp =>
    ⟨(mem_pieces J.max_chunk_pos hp).1, le_trans
      (Nat.add_le_add_right (le_trans (mem_pieces J.max_chunk_pos hp).2 (min_le_right _ _)) _) J.max_chunk_fits⟩
  obtain ⟨es, hq, hes, hflat⟩ := @decryptQueue_pieces J.tf J.tf_key J.mac_context.out_action hact
    _ st rfl (hnext.symm ▸ hchain) hfit
  refine ⟨es, ?_, fun e he => ⟨(hes e he).1 ▸ hact, (hes e he).2⟩, ?_⟩
  · have hh : (DecryptThread.DecryptState.init J.tf_key).header = true := rfl
    rw [List.map_cons, List.cons_append, DecryptThread.decryptQueue,
      if_neg (show ¬ (AuthThread.passed J.mac_context _).action = .DONE from hact), if_pos hh, ← hst, macPlan,
      List.map_map]
    exact hq
  · have hbytes : es.flatMap Chunk.bytes = bytesOf (es.flatMap Chunk.data) := by
      rw [bytesOf, List.flatMap_assoc]
      exact List.flatMap_congr fun e he => (hes e he).2.bytes
    rw [hbytes, hflat, flatMap_blocksOf, flatMap_padded_pieces J.max_chunk_pos J.max_chunk_dvd, hnext]
    rfl

/-- What is written of them when the header says `n`. -/
theorem asyncWrite_plan (hbig : isGreaterThanThreeBlocks J.file.length J.state_size = true)
    (h64 : J.file.length + 2 * J.state_size.bytes < 2 ^ 64) {n : ℕ} (hn : n < 2 ^ 64) {es : List Chunk}
    (hes : ∀ e ∈ es, e.action ≠ .DONE ∧ Whole e) (hbytes : es.flatMap Chunk.bytes = J.plaintext) :
    WriteThread.asyncWrite (some n) 0 (es ++ [doneChunk]) = some (J.plaintext.take n) := by
  have hlen : J.plaintext.length < 2 ^ 64 := by
    have h1 := blockCount_mul_lt (dataPart J.file J.state_size).length J.state_size
    have h2 : (dataPart J.file J.state_size).length ≤ J.file.length := by
      simp only [dataPart, List.length_take, List.length_drop]; omega
    rw [length_plaintext hbig, length_padded]
    omega
  rw [WriteThread.asyncWrite_take hn es 0 (Nat.zero_le _) (by rw [hbytes]; omega)
    fun e he => (hes e he).2.handed (hes e he).1, hbytes, Nat.sub_zero]

end Job

end Threefizer
