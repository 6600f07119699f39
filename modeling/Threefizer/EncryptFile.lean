/-
# The encrypted file

`encryptFile` runs `queueHeader` and the four threads of an encryption one
after the other. When every chunk is read by one `read` it returns the
textbook construction over the whole file, whatever the chunk size
(`encryptFile_eq`): the initialization vector, the CBC encryption of the
header block and the padded file under it, and the MAC of these. The chain
buffer carries the last ciphertext block from the header to the first chunk
and from chunk to chunk (`encryptQueue_pieces`), so that the pieces encrypted
one after the other are one encryption. Otherwise nothing comes out
(`encryptFile_none`).
-/
import Threefizer.EncryptThread
import Threefizer.GenerateThread
import Threefizer.ReadPlan
import Threefizer.Skein3fish
import Threefizer.WriteThread

namespace Threefizer

open Words Queue

/-- The bytes written by an encryption whose functions are run one after the
other, with chunks of at most `max_chunk` bytes; none when it fails or does
not return. -/
def encryptFile (J : Job) (max_chunk : ℕ) : Option (List Byte) :=
  match queueHeader J.args (createQueue QUE_SIZE) with
  | some (true, crypto_queue) =>
    ((encryptReader J.file J.state_size max_chunk).queueFile J.file.length).bind fun ds =>
    (EncryptThread.encryptQueue J.tf J.tf_key (EncryptThread.EncryptState.init J.tf_key)
      (crypto_queue.elements ++ ds)).bind fun es =>
    (GenerateThread.generateMAC J.mac_context J.mac_context.skein_context es).bind fun ms =>
    WriteThread.asyncWrite none 0 ms
  | _ => none

/-! ### The textbook construction -/

/-- A run of bytes in blocks. -/
def blocksOf (s : SkeinSize) (bs : List Byte) : List (List Word) :=
  blocks s.words (bs.length / s.bytes) (wordsOf bs)

namespace Job

variable (J : Job)

/-- The version in the header. -/
def version : ℕ := if J.args.legacy_hash then 1 else 2

/-- The blocks encrypted: the header block and the padded file. -/
def plainBlocks : List (List Word) :=
  headerBlock J.args.file_size J.state_size J.version :: blocksOf J.state_size (padded J.file J.state_size)

/-- The ciphertext, under the initialization vector `iv`. -/
def cipherBlocks (iv : List Word) : List (List Word) :=
  Cbc.encrypt xorBlock (J.tf.threefishEncryptBlockWords J.tf_key) iv J.plainBlocks

/-- What the tag is made of: `IV ‖ C`. -/
def macInput (iv : List Word) : List Byte := bytesOf (iv ++ (J.cipherBlocks iv).flatten)

/-- The encrypted file: `IV ‖ C ‖ T`. -/
def image (iv : List Word) : List Byte :=
  J.macInput iv ++ bytesOf (J.sk.tag J.state_size J.mac_key (J.macInput iv))

end Job

/-! ### Blocks of padded pieces -/

section Blocks

variable {s : SkeinSize} {a b : List Byte}

theorem eight_dvd_of_blocks (h : s.bytes ∣ a.length) : 8 ∣ a.length :=
  Dvd.dvd.trans (s.bytes_eq ▸ Nat.dvd_mul_right _ _) h

theorem length_wordsOf_blocks (h : s.bytes ∣ a.length) :
    (wordsOf a).length = a.length / s.bytes * s.words := by
  obtain ⟨k, hk⟩ := h
  rw [length_wordsOf (eight_dvd_of_blocks ⟨k, hk⟩), hk, Nat.mul_div_cancel_left _ s.bytes_pos, s.bytes_eq,
    Nat.mul_assoc, Nat.mul_div_cancel_left _ (by decide), Nat.mul_comm]

theorem blocksOf_append (h : s.bytes ∣ a.length) :
    blocksOf s (a ++ b) = blocksOf s a ++ blocksOf s b := by
  have hdiv : (a ++ b).length / s.bytes = a.length / s.bytes + b.length / s.bytes := by
    obtain ⟨k, hk⟩ := h
    rw [List.length_append, hk, Nat.mul_add_div s.bytes_pos, Nat.mul_div_cancel_left _ s.bytes_pos]
  rw [blocksOf, hdiv, wordsOf_append (eight_dvd_of_blocks h),
    blocks_append _ _ (length_wordsOf_blocks h)]
  rfl

theorem flatten_blocksOf (h : s.bytes ∣ a.length) : (blocksOf s a).flatten = wordsOf a := by
  rw [blocksOf, flatten_blocks, ← length_wordsOf_blocks h, List.take_length]

theorem mem_blocksOf (h : s.bytes ∣ a.length) : ∀ x ∈ blocksOf s a, x.length = s.words :=
  mem_blocks_length _ (length_wordsOf_blocks h).ge

/-- Blocks in memory. -/
theorem length_bytesOf_blocks {bs : List (List Word)} (h : ∀ b ∈ bs, b.length = s.words) :
    (bytesOf bs.flatten).length = bs.length * s.bytes := by
  rw [length_bytesOf, length_flatten_of_width h, s.bytes_eq, Nat.mul_left_comm]

theorem blocksOf_bytesOf {bs : List (List Word)} (h : ∀ b ∈ bs, b.length = s.words) :
    blocksOf s (bytesOf bs.flatten) = bs := by
  rw [blocksOf, length_bytesOf_blocks h, Nat.mul_div_cancel _ s.bytes_pos, wordsOf_bytesOf, blocks_flatten h]

theorem dvd_length_padded (p : List Byte) (s : SkeinSize) : s.bytes ∣ (padded p s).length := by
  rw [length_padded]; exact Nat.dvd_mul_left _ _

theorem length_blocksOf_padded (p : List Byte) (s : SkeinSize) :
    (blocksOf s (padded p s)).length = blockCount p.length s := by
  rw [blocksOf, length_blocks, length_padded, Nat.mul_div_cancel _ s.bytes_pos]

/-- The blocks of padded pieces in order are the blocks of the pieces in order. -/
theorem flatMap_blocksOf : ∀ ps : List (List Byte),
    ps.flatMap (fun p => blocksOf s (padded p s)) = blocksOf s (ps.flatMap (padded · s))
  | [] => by simp [blocksOf, blocks]
  | p :: ps => by
    rw [List.flatMap_cons, List.flatMap_cons, blocksOf_append (dvd_length_padded p s),
      flatMap_blocksOf ps]

/-- The last of a run of blocks is the chain after it. -/
theorem getChainInBuffer_flatten {bs : List (List Word)} {c : List Word} (hne : bs ≠ [])
    (hbs : ∀ x ∈ bs, x.length = s.words) :
    getChainInBuffer bs.flatten bs.length s = Cbc.chain c bs := by
  have hchain := blockAt_chain c [] hne hbs
  rwa [List.append_nil, Nat.mul_comm] at hchain

end Blocks

/-! ### The threads on the plan -/

/-- A chunk whose data is whole words, not a null pointer. -/
def Whole (c : Chunk) : Prop := c.data ≠ [] ∧ c.data_size = 8 * c.data.length

theorem Whole.bytes {c : Chunk} (h : Whole c) : c.bytes = bytesOf c.data := by
  rw [Chunk.bytes, h.2, ← length_bytesOf, List.take_length]

theorem Whole.handed {c : Chunk} (h : Whole c) (hd : c.action ≠ .DONE) : WriteThread.Handed c :=
  ⟨hd, h.1, by rw [h.bytes, length_bytesOf, h.2]⟩

section Encrypt

open EncryptThread

variable {tf : Threefish} {key : ThreefishKey}

/-- The header is the first block of the mode, with the vector as its chain. -/
theorem encryptChunk_header {args : Arguments} {iv chain : List Word} {v : ℕ}
    (hiv : args.iv = some iv) (hlen : iv.length = key.stateSize.words)
    (hs : args.state_size = key.stateSize) (hsize : 1 < args.file_size)
    (hv : v = if args.legacy_hash then 1 else 2) :
    let b := headerBlock args.file_size key.stateSize v
    let c₁ := tf.threefishEncryptBlockWords key (xorBlock b iv)
    encryptChunk tf key ⟨true, chain⟩ (headerChunk args) =
      some (some (⟨.ENCRYPT, iv ++ c₁, 2 * key.stateSize.bytes⟩, ⟨false, c₁⟩)) := by
  intro b c₁
  have hb : b.length = key.stateSize.words := length_headerBlock _ _ _
  have hc : c₁.length = key.stateSize.words := tf.encrypt_length key _ (length_xorBlock hb hlen)
  have hv' : v = 1 ∨ v = 2 := by rw [hv]; cases args.legacy_hash <;> simp
  have hdata : (headerChunk args).data = iv ++ b := by
    simp only [headerChunk, hiv, hs, ← hv]
    rw [genHeader_eq hlen hsize hv']; rfl
  have hchain : getChainInBuffer (iv ++ c₁) 2 key.stateSize = c₁ := by
    rw [getChainInBuffer, blockAt_append _ (by omega), ← hc, List.take_length]
  simp only [encryptChunk, if_true, hdata]
  rw [encryptHeader_eq hlen hb]
  simp only [Option.map_some]
  rw [hchain]
  simp only [headerChunk, hs]
  rfl

variable (tf) in
/-- A data chunk is its blocks in the mode, with the chain of the chunk before. -/
theorem encryptChunk_data {a : Action} {p : List Byte} {chain : List Word}
    (hchain : chain.length = key.stateSize.words) (hp : 0 < p.length)
    (h32 : p.length + key.stateSize.bytes ≤ 2 ^ 32) :
    let s := key.stateSize
    let bs := Cbc.encrypt xorBlock (tf.threefishEncryptBlockWords key) chain (blocksOf s (padded p s))
    encryptChunk tf key ⟨false, chain⟩ (dataChunk a s p) =
      some (some (⟨a, bs.flatten, (padded p s).length⟩, ⟨false, Cbc.chain chain bs⟩)) ∧
    (∀ x ∈ bs, x.length = s.words) ∧ (Cbc.chain chain bs).length = s.words ∧ bs.flatten ≠ [] ∧
    (padded p s).length = 8 * bs.flatten.length := by
  intro s bs
  have hN := blockCount_pos s hp
  have hd := dvd_length_padded p s
  have hbl : ∀ x ∈ bs, x.length = s.words :=
    Cbc.encrypt_mem (S := ofWidth s.words) (fun a ha b hb => length_xorBlock ha hb)
      (tf.encrypt_length key) _ _ hchain (mem_blocksOf hd)
  have hlen : bs.length = blockCount p.length s := by
    simp only [bs, Cbc.length_encrypt]; exact length_blocksOf_padded p s
  have hne : bs ≠ [] := fun h => by rw [h] at hlen; simp at hlen; omega
  have hflat : bs.flatten.length = blockCount p.length s * s.words := by
    rw [length_flatten_of_width hbl, hlen]
  have hcount : getNumBlocks (blockCount p.length s * s.bytes) s = some (blockCount p.length s) := by
    rw [getNumBlocks_eq (blockCount_mul_fits h32), blockCount_mul]
  have hwords : (wordsOf (padded p s)).length = blockCount p.length s * s.words := by
    rw [length_wordsOf_blocks hd, length_padded, Nat.mul_div_cancel _ s.bytes_pos]
  have henc : encryptInPlace tf key chain (wordsOf (padded p s)) (blockCount p.length s) = bs.flatten := by
    rw [encryptInPlace_eq hchain hN hwords.ge, ← hwords, List.drop_length, List.append_nil]
    simp only [bs, blocksOf, length_padded, Nat.mul_div_cancel _ s.bytes_pos]
    rfl
  refine ⟨?_, hbl, Cbc.chain_mem (S := ofWidth s.words) hchain hbl, ?_, ?_⟩
  · simp only [encryptChunk, Bool.false_eq_true, if_false, dataChunk]
    rw [hcount]
    simp only [Option.map_some, henc, length_padded]
    rw [← hlen, getChainInBuffer_flatten (c := chain) hne hbl]
  · intro h
    rw [h, List.length_nil] at hflat
    have := Nat.mul_pos hN s.words_pos
    omega
  · rw [length_padded, hflat, s.bytes_eq, Nat.mul_left_comm]

/-- Pieces encrypted one after the other are one encryption. -/
theorem encryptQueue_pieces {a : Action} (ha : a ≠ .DONE) : ∀ (ps : List (List Byte)) (chain : List Word),
    chain.length = key.stateSize.words →
    (∀ p ∈ ps, 0 < p.length ∧ p.length + key.stateSize.bytes ≤ 2 ^ 32) →
    ∃ es, encryptQueue tf key ⟨false, chain⟩ (ps.map (dataChunk a key.stateSize) ++ [doneChunk]) =
        some (es ++ [doneChunk]) ∧
      (∀ e ∈ es, e.action = .GEN_MAC ∧ Whole e) ∧
      es.flatMap Chunk.data = (Cbc.encrypt xorBlock (tf.threefishEncryptBlockWords key) chain
        (ps.flatMap fun p => blocksOf key.stateSize (padded p key.stateSize))).flatten
  | [], chain, _, _ => ⟨[], by simp [encryptQueue], nofun, by simp [Cbc.encrypt]⟩
  | p :: ps, chain, hc, hps => by
    obtain ⟨hp, h32⟩ := hps p List.mem_cons_self
    obtain ⟨he, -, hc', hne, hsz⟩ := encryptChunk_data tf (a := a) hc hp h32
    obtain ⟨es, hq, hes, hflat⟩ := encryptQueue_pieces ha ps _ hc' fun q hq => hps q (List.mem_cons_of_mem _ hq)
    refine ⟨genMac ⟨a, (Cbc.encrypt xorBlock (tf.threefishEncryptBlockWords key) chain
      (blocksOf key.stateSize (padded p key.stateSize))).flatten,
      (padded p key.stateSize).length⟩ :: es, ?_, ?_, ?_⟩
    · rw [List.map_cons, List.cons_append, encryptQueue, dataChunk_action, if_neg ha, he]
      simp only [hq, Option.map_some, List.cons_append]
    · intro e he
      rcases List.mem_cons.mp he with rfl | he
      · exact ⟨rfl, hne, hsz⟩
      · exact hes e he
    · rw [List.flatMap_cons, List.flatMap_cons, Cbc.encrypt_append, List.flatten_append, hflat]
      rfl

end Encrypt

section Mac

open GenerateThread

variable {sk : Skein} {mc : MacCtx sk}

theorem foldl_skeinUpdate (sk : Skein) (ctx : sk.Ctx) (c : Chunk) (cs : List Chunk) :
    (c :: cs).foldl (fun x e => sk.skeinUpdate x e.bytes) ctx =
      sk.skeinUpdate ctx ((c :: cs).flatMap Chunk.bytes) := by
  induction cs generalizing c ctx with
  | nil => simp
  | cons d cs ih =>
    rw [List.foldl_cons, ih, sk.update_append]
    simp

/-- The tag is made of all the chunks before `DONE`, which are passed on. -/
theorem generateMAC_eq : ∀ (es : List Chunk) (ctx : sk.Ctx), (∀ e ∈ es, e.action = .GEN_MAC) →
    generateMAC mc ctx (es ++ [doneChunk]) =
      some (es.map (passed mc) ++
        [tagChunk mc (es.foldl (fun x e => sk.skeinUpdate x e.bytes) ctx), doneChunk])
  | [], ctx, _ => by simp [generateMAC]
  | e :: es, ctx, h => by
    have he := h e List.mem_cons_self
    rw [List.cons_append, generateMAC, if_neg (by simp [he]), if_pos he,
      generateMAC_eq es _ fun e he => h e (List.mem_cons_of_mem _ he)]
    rfl

end Mac

/-! ### The whole file -/

section Job

variable {J : Job} {iv : List Word} {m : ℕ}

theorem out_action_ne_done (J : Job) : J.mac_context.out_action ≠ .DONE := by
  simp only [Job.mac_context, InitMacCtx]; split <;> decide

theorem digest_byte_size_eq (J : Job) : J.mac_context.digest_byte_size = J.state_size.bytes := rfl

theorem queueHeader_eq (hiv : J.args.iv = some iv) (hlen : iv.length = J.state_size.words)
    (hsize : 2 ≤ J.file.length) {n : ℕ} (hn : 0 < n) :
    ∃ q, queueHeader J.args (createQueue n) = some (true, q) ∧ q.capacity = n ∧ q.locked = false ∧
      q.elements = [headerChunk J.args] := by
  have hv : (if J.args.legacy_hash then 1 else 2) = 1 ∨ (if J.args.legacy_hash then 1 else 2) = 2 := by
    cases J.args.legacy_hash <;> simp
  have hdata : (headerChunk J.args).data ≠ [] := by
    simp only [headerChunk, hiv, J.state_size_eq]
    rw [genHeader_eq hlen (by rw [J.file_size_eq]; omega) hv]
    exact header_ne_nil iv (length_headerBlock _ _ _)
  obtain ⟨q, hq⟩ := enque_of_room (headerChunk J.args) (q := createQueue n) hn
  refine ⟨q, ?_, (enque_eq_some hq).2.1, (enque_eq_some hq).2.2, (enque_eq_some hq).1⟩
  rw [queueHeader, if_neg (by simp [hiv]), if_neg hdata, hq]
  rfl

/-- The chunks `encryptQueue` puts out for the whole file. -/
theorem encryptQueue_plan (hiv : J.args.iv = some iv) (hlen : iv.length = J.state_size.words)
    (hsize : 2 ≤ J.file.length) (hm : 0 < m) (hd : J.state_size.bytes ∣ m)
    (hread : min J.file.length m ≤ READ_MAX) :
    ∃ es, EncryptThread.encryptQueue J.tf J.tf_key (EncryptThread.EncryptState.init J.tf_key)
        (headerChunk J.args :: encryptPlan J.file J.state_size m ++ [doneChunk]) = some (es ++ [doneChunk]) ∧
      es ≠ [] ∧ (∀ e ∈ es, e.action = .GEN_MAC ∧ Whole e) ∧
      es.flatMap Chunk.bytes = J.macInput iv := by
  set b := headerBlock J.args.file_size J.state_size J.version with hb
  set c₁ := J.tf.threefishEncryptBlockWords J.tf_key (xorBlock b iv) with hc₁
  have hblen : b.length = J.state_size.words := length_headerBlock _ _ _
  have hclen : c₁.length = J.state_size.words :=
    J.tf.encrypt_length J.tf_key _ (length_xorBlock hblen hlen)
  have hhead : EncryptThread.encryptChunk J.tf J.tf_key (EncryptThread.EncryptState.init J.tf_key)
      (headerChunk J.args) =
        some (some (⟨.ENCRYPT, iv ++ c₁, 2 * J.state_size.bytes⟩, ⟨false, c₁⟩)) :=
    encryptChunk_header hiv hlen J.state_size_eq (by rw [J.file_size_eq]; omega) rfl
  have hfit : ∀ p ∈ pieces m J.file, 0 < p.length ∧ p.length + J.tf_key.stateSize.bytes ≤ 2 ^ 32 :=
    fun p hp => ⟨(mem_pieces hm hp).1,
      (Nat.add_le_add_right ((mem_pieces hm hp).2.trans hread) _).trans (READ_MAX_fits _)⟩
  obtain ⟨es, hq, hes, hflat⟩ := @encryptQueue_pieces J.tf J.tf_key .ENCRYPT (by decide) _ c₁ hclen hfit
  refine ⟨EncryptThread.genMac ⟨.ENCRYPT, iv ++ c₁, 2 * J.state_size.bytes⟩ :: es, ?_, by simp, ?_, ?_⟩
  · rw [List.cons_append, EncryptThread.encryptQueue, if_neg (by simp [headerChunk]), hhead]
    simp only [encryptPlan]
    rw [hq]
    rfl
  · intro e he
    rcases List.mem_cons.mp he with rfl | he
    · refine ⟨rfl, header_ne_nil iv hclen, ?_⟩
      simp only [EncryptThread.genMac, List.length_append, hlen, hclen, SkeinSize.bytes_eq]
      omega
    · exact hes e he
  · have hbytes : es.flatMap Chunk.bytes = bytesOf (es.flatMap Chunk.data) := by
      rw [bytesOf, List.flatMap_assoc]
      exact List.flatMap_congr fun e he => (hes e he).2.bytes
    have hwhole : Whole (EncryptThread.genMac ⟨.ENCRYPT, iv ++ c₁, 2 * J.state_size.bytes⟩) := by
      refine ⟨header_ne_nil iv hclen, ?_⟩
      simp only [EncryptThread.genMac, List.length_append, hlen, hclen, SkeinSize.bytes_eq]
      omega
    rw [List.flatMap_cons, hwhole.bytes, hbytes, hflat, flatMap_blocksOf, flatMap_padded_pieces hm hd,
      ← bytesOf_append]
    simp only [EncryptThread.genMac, Job.macInput, Job.cipherBlocks, Job.plainBlocks, Cbc.encrypt,
      List.flatten_cons, List.append_assoc]
    rfl

/-- The chunks `generateMAC` makes of them, and what is written. -/
theorem generateMAC_plan {es : List Chunk} (hne : es ≠ [])
    (hes : ∀ e ∈ es, e.action = .GEN_MAC ∧ Whole e) (hbytes : es.flatMap Chunk.bytes = J.macInput iv) :
    ∃ ms, GenerateThread.generateMAC J.mac_context J.mac_context.skein_context (es ++ [doneChunk]) =
        some (ms ++ [doneChunk]) ∧
      WriteThread.asyncWrite none 0 (ms ++ [doneChunk]) = some (J.image iv) := by
  obtain ⟨e, es', rfl⟩ := List.exists_cons_of_ne_nil hne
  set ctx := J.sk.skeinUpdate J.mac_context.skein_context (J.macInput iv) with hctx
  have hfinal : (J.sk.skeinFinal ctx).length = J.state_size.words := J.sk.final_length _ _ _
  set t := GenerateThread.tagChunk J.mac_context ctx with ht
  have hwhole : Whole t := by
    have := J.state_size.words_pos
    refine ⟨fun h => ?_, ?_⟩
    · have h0 : (J.sk.skeinFinal ctx).length = 0 := congrArg List.length h
      omega
    · exact (digest_byte_size_eq J).trans (J.state_size.bytes_eq.trans (congrArg _ hfinal.symm))
  refine ⟨(e :: es').map (GenerateThread.passed J.mac_context) ++ [t], ?_, ?_⟩
  · rw [generateMAC_eq _ _ fun e he => (hes e he).1, foldl_skeinUpdate, hbytes, List.append_assoc]
    rfl
  · rw [WriteThread.asyncWrite_eq]
    · rw [List.flatMap_append, List.flatMap_singleton, hwhole.bytes, List.flatMap_map]
      exact congrArg some (congrArg (· ++ _) hbytes)
    · intro c hc
      rcases List.mem_append.mp hc with hc | hc
      · obtain ⟨d, hd, rfl⟩ := List.mem_map.mp hc
        exact ⟨out_action_ne_done J, (hes d hd).2.1⟩
      · rw [List.mem_singleton.mp hc]
        exact ⟨nofun, hwhole.1⟩

/-- The sequential run is the textbook construction. -/
theorem encryptFile_eq (hiv : J.args.iv = some iv) (hlen : iv.length = J.state_size.words)
    (hsize : 2 ≤ J.file.length) (hm : 0 < m) (hd : J.state_size.bytes ∣ m)
    (hread : min J.file.length m ≤ READ_MAX) :
    encryptFile J m = some (J.image iv) := by
  obtain ⟨q, hq, -, -, hel⟩ := queueHeader_eq hiv hlen hsize (n := QUE_SIZE) (by decide)
  obtain ⟨es, hes, hne, hact, hbytes⟩ := encryptQueue_plan hiv hlen hsize hm hd hread
  obtain ⟨ms, hms, himg⟩ := generateMAC_plan hne hact hbytes
  have hfile : J.file ≠ [] := fun h => by rw [h, List.length_nil] at hsize; omega
  simp only [encryptFile, hq, hel]
  rw [queueFile_encrypt hfile hm hread, Option.bind_some, List.singleton_append, ← List.cons_append, hes,
    Option.bind_some, hms, Option.bind_some, himg]

/-- With a chunk longer than one `read` delivers nothing comes out. -/
theorem encryptFile_none (hiv : J.args.iv = some iv) (hlen : iv.length = J.state_size.words)
    (hsize : 2 ≤ J.file.length)
    (hread : READ_MAX < min J.file.length m) : encryptFile J m = none := by
  obtain ⟨q, hq, -⟩ := queueHeader_eq hiv hlen hsize (n := QUE_SIZE) (by decide)
  have hfile : J.file ≠ [] := fun h => by rw [h, List.length_nil] at hsize; omega
  simp only [encryptFile, hq]
  rw [queueFile_none hfile hread]
  rfl

/-- With chunks of whole blocks the sequential run is the textbook construction
exactly when one `read` delivers a whole chunk; so it does not depend on the
chunk size among those. -/
theorem encryptFile_iff (J : Job) {iv : List Word} {m : ℕ} (hiv : J.args.iv = some iv)
    (hlen : iv.length = J.state_size.words) (hsize : 2 ≤ J.file.length) (hm : 0 < m)
    (hd : J.state_size.bytes ∣ m) :
    encryptFile J m = some (J.image iv) ↔ min J.file.length m ≤ READ_MAX := by
  constructor
  · intro h
    by_contra hread
    rw [encryptFile_none hiv hlen hsize (not_le.mp hread)] at h
    cases h
  · exact encryptFile_eq hiv hlen hsize hm hd

theorem encryptFile_iff_sample :
    encryptFile (Skein3fish.sampleJob true Skein3fish.sampleText) 64 =
        some ((Skein3fish.sampleJob true Skein3fish.sampleText).image [10, 11, 12, 13]) ↔
      min 3 64 ≤ READ_MAX :=
  encryptFile_iff (Skein3fish.sampleJob true Skein3fish.sampleText) rfl rfl (by decide) (by decide)
    (by decide)

/-- It does not hold for every chunk size of whole blocks: a file of `2^31`
bytes in one chunk is never encrypted. -/
theorem encryptFile_not_always : ¬ ∀ (J : Job) (iv : List Word) (m : ℕ), J.args.iv = some iv →
    iv.length = J.state_size.words → 2 ≤ J.file.length → 0 < m → J.state_size.bytes ∣ m →
    encryptFile J m = some (J.image iv) := by
  intro h
  have hfile : (Skein3fish.sampleJob true (List.replicate (2 ^ 31) 0)).file.length = 2 ^ 31 :=
    List.length_replicate
  have hsize : 2 ≤ (Skein3fish.sampleJob true (List.replicate (2 ^ 31) 0)).file.length := by
    rw [hfile]; decide
  have hnone : encryptFile (Skein3fish.sampleJob true (List.replicate (2 ^ 31) 0)) (2 ^ 31) = none :=
    encryptFile_none rfl rfl hsize (by rw [hfile, Nat.min_self]; decide)
  have hsome := h (Skein3fish.sampleJob true (List.replicate (2 ^ 31) 0)) [10, 11, 12, 13] (2 ^ 31) rfl rfl
    hsize (by decide) ⟨2 ^ 26, rfl⟩
  rw [hnone] at hsome
  cases hsome

end Job

end Threefizer
