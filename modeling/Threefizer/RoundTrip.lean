/-
# Encrypting and decrypting

Run one after the other, the threads of a decryption find in an encrypted file
the parts the encryption put there (`Job.reading`): the header that decrypts to
the one that was generated, the ciphertext of the padded file, and the tag of
both. So the header check and the comparison of the tags pass, and the writer
cuts the padding off (`decryptFile_image`).
-/
import Threefizer.DecryptFile
import Threefizer.Skein3fish

namespace Threefizer

open Words Queue

/-! ### A valid file -/

namespace AuthThread

variable {sk : Skein} {tf : Threefish} {tf_key : ThreefishKey} {mc : MacCtx sk}

/-- The first loop takes the data up to the tag chunk, which the second accepts. -/
theorem macLoop_data {m : Chunk} (hm : m.action = .MAC) : ∀ (ds : List Chunk) (ctx : sk.Ctx),
    (∀ d ∈ ds, isLast d = false) → tagsEqual mc (sk.skeinFinal (feed ctx ds)) m.data = true →
    macLoop mc ctx (ds ++ [m, doneChunk]) = some (ds.map (passed mc) ++ [doneChunk], none)
  | [], ctx, _, heq => by
    rw [List.nil_append, macLoop, if_pos hm, checkTag, if_pos ⟨hm, heq⟩]
    rfl
  | d :: ds, ctx, hds, heq => by
    have hd : d.action ≠ .MAC ∧ d.action ≠ .DONE := by
      simpa [isLast] using hds d List.mem_cons_self
    rw [List.cons_append, macLoop, if_neg hd.1, if_neg hd.2,
      macLoop_data hm ds _ (fun e he => hds e (List.mem_cons_of_mem _ he)) heq]
    rfl

end AuthThread

section Job

variable {J : Job}

/-- A file with a valid header and the right tag is decrypted without error. -/
theorem decryptFile_eq (hbig : isGreaterThanThreeBlocks J.file.length J.state_size = true)
    (h64 : J.file.length + 2 * J.state_size.bytes < 2 ^ 64) {n : ℕ} (hn : J.headerSize = some n)
    (htag : J.storedTag = J.sk.tag J.state_size J.mac_key J.authenticated) :
    decryptFile J = some ⟨some n, none, J.plaintext.take n⟩ := by
  obtain ⟨es, hes, hact, hbytes⟩ := decryptQueue_plan hbig
  have hw := asyncWrite_plan hbig h64 (checkHeader_lt hn) hact hbytes
  set ds := checkChunk J.file J.state_size :: macPlan J.file J.state_size J.max_chunk with hds
  have hlast : ∀ d ∈ ds, AuthThread.isLast d = false := by
    intro d hd
    rcases List.mem_cons.mp hd with rfl | hd
    · rfl
    · obtain ⟨p, -, rfl⟩ := List.mem_map.mp hd
      rfl
  have hfeed : @AuthThread.feed J.sk J.mac_context.skein_context ds =
      J.sk.skeinUpdate J.mac_context.skein_context J.authenticated := by
    rw [AuthThread.feed, hds, foldl_skeinUpdate, flatMap_bytes_plan hbig]
  have heq : AuthThread.tagsEqual J.mac_context
      (J.sk.skeinFinal (AuthThread.feed J.mac_context.skein_context ds))
      (macChunk J.file J.state_size).data = true := by
    rw [hfeed]
    exact (accepts_macChunk hbig _).mpr htag
  have hauth : AuthThread.authenticateMAC J.tf J.tf_key J.mac_context
      (decryptPlan J.file J.state_size J.max_chunk ++ [doneChunk]) =
        some ⟨ds.map (AuthThread.passed J.mac_context) ++ [doneChunk], some n, none⟩ := by
    have hloop := @AuthThread.macLoop_data J.sk J.mac_context (macChunk J.file J.state_size) rfl ds
      _ hlast heq
    have hplan : decryptPlan J.file J.state_size J.max_chunk ++ [doneChunk] =
        ds ++ [macChunk J.file J.state_size, doneChunk] := by simp [decryptPlan, hds]
    rw [hplan]
    rw [hds, List.cons_append] at hloop ⊢
    have hsz : AuthThread.headerSize J.tf J.tf_key (checkChunk J.file J.state_size) = some n := hn
    rw [AuthThread.authenticateMAC, if_neg (by rw [hlast _ List.mem_cons_self]; decide), hsz, hloop]
    rfl
  rw [decryptFile, queueFile_decrypt hbig J.max_chunk_pos (J.reads _) h64, Option.bind_some, hauth,
    Option.bind_some]
  simp only
  rw [hes, Option.bind_some, hw]
  rfl

end Job

/-! ### An encrypted file -/

namespace Job

/-- The run with the primitives, keys and constants of `J` on the file `file`. -/
def reading (J : Job) (args : Arguments) (file : List Byte) (hs : args.state_size = J.state_size)
    (hf : args.file_size = file.length) : Job :=
  { J with args := args, file := file, state_size_eq := hs, file_size_eq := hf }

end Job

/-- `getIV`: the first block of the file. -/
def getIV (file : List Byte) (s : SkeinSize) : Option (List Word) := (readBytes file 0 s.bytes).map wordsOf

section Image

variable {J : Job} {iv : List Word}

/-- The ciphertext is the block of the header and the blocks of the file. -/
structure Parts (J : Job) (iv c : List Word) (cs : List (List Word)) : Prop where
  cipher : J.cipherBlocks iv = c :: cs
  header : c = J.tf.threefishEncryptBlockWords J.tf_key
    (xorBlock (headerBlock J.args.file_size J.state_size J.version) iv)
  data : cs = Cbc.encrypt xorBlock (J.tf.threefishEncryptBlockWords J.tf_key) c
    (blocksOf J.state_size (padded J.file J.state_size))
  width : iv.length = J.state_size.words
  headerWidth : c.length = J.state_size.words
  dataWidth : ∀ x ∈ cs, x.length = J.state_size.words
  count : cs.length = blockCount J.file.length J.state_size

theorem image_has_parts (hlen : iv.length = J.state_size.words) : ∃ c cs, Parts J iv c cs := by
  have hplain : ∀ x ∈ J.plainBlocks, x.length = J.state_size.words := by
    intro x hx
    rcases List.mem_cons.mp hx with rfl | hx
    · exact length_headerBlock _ _ _
    · exact mem_blocksOf (dvd_length_padded _ _) x hx
  have hmem : ∀ x ∈ J.cipherBlocks iv, x.length = J.state_size.words :=
    Cbc.encrypt_mem (S := ofWidth J.state_size.words) (fun a ha b hb => length_xorBlock ha hb)
      (J.tf.encrypt_length J.tf_key) _ _ hlen hplain
  refine ⟨_, _, rfl, rfl, rfl, hlen, hmem _ List.mem_cons_self,
    fun x hx => hmem x (List.mem_cons_of_mem _ hx), ?_⟩
  rw [Cbc.length_encrypt, length_blocksOf_padded]

namespace Parts

variable {c : List Word} {cs : List (List Word)} (h : Parts J iv c cs)
include h

/-- The encrypted file is made of the header, the data and the tag. -/
theorem image_eq : J.image iv = bytesOf (iv ++ c) ++ bytesOf cs.flatten ++
    bytesOf (J.sk.tag J.state_size J.mac_key (J.macInput iv)) := by
  rw [Job.image, Job.macInput, h.cipher, List.flatten_cons, ← List.append_assoc, bytesOf_append (iv ++ c)]

theorem length_header : (bytesOf (iv ++ c)).length = 2 * J.state_size.bytes := by
  rw [length_bytesOf, List.length_append, h.width, h.headerWidth, J.state_size.bytes_eq]; omega

theorem length_data : (bytesOf cs.flatten).length = cs.length * J.state_size.bytes :=
  length_bytesOf_blocks h.dataWidth

omit h in
theorem length_tag : (bytesOf (J.sk.tag J.state_size J.mac_key (J.macInput iv))).length =
    J.state_size.bytes := by
  rw [length_bytesOf, J.state_size.bytes_eq]
  exact congrArg _ (J.sk.final_length _ _ _)

theorem length_image : (J.image iv).length = (3 + cs.length) * J.state_size.bytes := by
  rw [h.image_eq, List.length_append, List.length_append, h.length_header, h.length_data, length_tag]
  ring

theorem headerPart_image : headerPart (J.image iv) J.state_size = bytesOf (iv ++ c) := by
  rw [headerPart, h.image_eq, List.append_assoc, ← h.length_header, List.take_left]

/-- All before the tag. -/
theorem length_before : (bytesOf (iv ++ c) ++ bytesOf cs.flatten).length =
    (J.image iv).length - J.state_size.bytes := by
  rw [h.image_eq, List.length_append, List.length_append, length_tag, Nat.add_sub_cancel,
    List.length_append]

theorem dataPart_image : dataPart (J.image iv) J.state_size = bytesOf cs.flatten := by
  rw [dataPart, ← h.length_before, List.length_append, h.length_header, Nat.add_sub_cancel_left, h.image_eq,
    List.append_assoc, ← h.length_header, List.drop_left, List.take_left]

theorem macPart_image : macPart (J.image iv) J.state_size =
    bytesOf (J.sk.tag J.state_size J.mac_key (J.macInput iv)) := by
  rw [macPart, ← h.length_before, h.image_eq, List.drop_left]

theorem padded_data : padded (dataPart (J.image iv) J.state_size) J.state_size = bytesOf cs.flatten := by
  rw [h.dataPart_image]
  exact padded_of_dvd (h.length_data ▸ Nat.dvd_mul_left _ _)

end Parts

section Reading

variable {args : Arguments} (hs : args.state_size = J.state_size) (hf : args.file_size = (J.image iv).length)

/-- The header check decrypts the header block to the one that was generated. -/
theorem reading_headerSize (hinv : J.tf.Inverts J.tf_key) (hlen : iv.length = J.state_size.words)
    (hfits : J.file.length < 2 ^ 64) :
    (J.reading args (J.image iv) hs hf).headerSize = some J.file.length := by
  obtain ⟨c, cs, h⟩ := image_has_parts (J := J) hlen
  have hblock := length_headerBlock J.args.file_size J.state_size J.version
  have hdata : (checkChunk (J.image iv) J.state_size).data = iv ++ c := by
    show wordsOf (padded (headerPart (J.image iv) J.state_size) J.state_size) = _
    rw [h.headerPart_image, padded_of_dvd (h.length_header ▸ Nat.dvd_mul_left _ _), wordsOf_bytesOf]
  have htake : (iv ++ c).take (2 * J.state_size.words) = iv ++ c :=
    List.take_of_length_le (by rw [List.length_append, h.width, h.headerWidth]; omega)
  show checkHeader ((decryptHeader J.tf J.tf_key
    ((checkChunk (J.image iv) J.state_size).data.take (2 * J.state_size.words))).getD _) J.state_size = _
  rw [hdata, htake, decryptHeader_eq hlen h.headerWidth, Option.getD_some, h.header,
    hinv _ (length_xorBlock hblock hlen), xorBlock_cancel (hblock.trans hlen.symm), J.file_size_eq]
  exact checkHeader_block hlen hfits

/-- The stored tag is that of all before it. -/
theorem reading_storedTag (hlen : iv.length = J.state_size.words) :
    let K := J.reading args (J.image iv) hs hf
    K.storedTag = K.sk.tag K.state_size K.mac_key K.authenticated := by
  intro K
  obtain ⟨c, cs, h⟩ := image_has_parts (J := J) hlen
  have hauth : K.authenticated = J.macInput iv := by
    show headerPart (J.image iv) J.state_size ++ padded (dataPart (J.image iv) J.state_size) J.state_size = _
    rw [h.padded_data, h.headerPart_image, ← bytesOf_append, Job.macInput, h.cipher, List.flatten_cons,
      List.append_assoc]
  rw [hauth]
  show wordsOf (macPart (J.image iv) J.state_size) = _
  rw [h.macPart_image, wordsOf_bytesOf]
  rfl

/-- The plaintext is the padded file. -/
theorem reading_plaintext (hinv : J.tf.Inverts J.tf_key) (hlen : iv.length = J.state_size.words) :
    (J.reading args (J.image iv) hs hf).plaintext = padded J.file J.state_size := by
  obtain ⟨c, cs, h⟩ := image_has_parts (J := J) hlen
  have hchain : (J.reading args (J.image iv) hs hf).headerChain = c := by
    show (wordsOf (headerPart (J.image iv) J.state_size)).drop J.state_size.words = c
    rw [h.headerPart_image, wordsOf_bytesOf, ← hlen, List.drop_left]
  have hblocks : (J.reading args (J.image iv) hs hf).dataBlocks = cs := by
    show blocksOf J.state_size (padded (dataPart (J.image iv) J.state_size) J.state_size) = cs
    rw [h.padded_data, blocksOf_bytesOf h.dataWidth]
  show bytesOf (Cbc.decrypt xorBlock (J.tf.threefishDecryptBlockWords J.tf_key)
    (J.reading args (J.image iv) hs hf).headerChain (J.reading args (J.image iv) hs hf).dataBlocks).flatten = _
  rw [hchain, hblocks, h.data, Cbc.decrypt_encrypt (S := ofWidth J.state_size.words)
    (fun a ha b hb => length_xorBlock ha hb) (fun a ha b hb => xorBlock_cancel (ha.trans hb.symm))
    (J.tf.encrypt_length J.tf_key) hinv _ _ h.headerWidth (mem_blocksOf (dvd_length_padded _ _)),
    flatten_blocksOf (dvd_length_padded _ _), bytesOf_wordsOf (eight_dvd_padded _ _)]

end Reading

theorem image_big (hlen : iv.length = J.state_size.words) (hsize : 0 < J.file.length)
    (hfits : J.file.length < 2 ^ 63) :
    isGreaterThanThreeBlocks (J.image iv).length J.state_size = true ∧
      (J.image iv).length + 2 * J.state_size.bytes < 2 ^ 64 := by
  obtain ⟨c, cs, h⟩ := image_has_parts (J := J) hlen
  have hpos := blockCount_pos J.state_size hsize
  have hlt := blockCount_mul_lt J.file.length J.state_size
  have hB := J.state_size.bytes_cases
  rw [h.length_image, h.count, Nat.add_mul]
  refine ⟨?_, by omega⟩
  have : J.state_size.bytes ≤ blockCount J.file.length J.state_size * J.state_size.bytes :=
    Nat.le_mul_of_pos_left _ hpos
  simp only [isGreaterThanThreeBlocks, decide_eq_true_eq]
  omega

theorem getIV_image (hlen : iv.length = J.state_size.words) :
    getIV (J.image iv) J.state_size = some iv := by
  have hB := J.state_size.bytes_eq
  have hpre : ∃ rest, J.image iv = bytesOf iv ++ rest := by
    rw [Job.image, Job.macInput, bytesOf_append, List.append_assoc]
    exact ⟨_, rfl⟩
  obtain ⟨rest, hrest⟩ := hpre
  have hl : (bytesOf iv).length = J.state_size.bytes := by rw [length_bytesOf, hlen, hB]
  rw [getIV, hrest, readBytes_block (by rw [List.length_append, hl]; omega), List.drop_zero,
    ← hl, List.take_left, Option.map_some, wordsOf_bytesOf]

/-- Every file of two bytes or more is encrypted to a file that the decryption
accepts, whose first block is the initialization vector, and that is decrypted
to the same bytes. -/
theorem round_trip (J : Job) {iv : List Word} (hinv : J.tf.Inverts J.tf_key) (hiv : J.args.iv = some iv)
    (hlen : iv.length = J.state_size.words) (hsize : 2 ≤ J.file.length)
    (hfits : J.file.length < 2 ^ 63) :
    ∃ file, encryptFile J J.max_chunk = some file ∧
      isGreaterThanThreeBlocks file.length J.state_size = true ∧
      getIV file J.state_size = some iv ∧
      ∀ (args : Arguments) (hs : args.state_size = J.state_size) (hf : args.file_size = file.length),
        decryptFile (J.reading args file hs hf) = some ⟨some J.file.length, none, J.file⟩ := by
  obtain ⟨hbig, h64⟩ := image_big (J := J) hlen (by omega) hfits
  refine ⟨J.image iv, encryptFile_eq hiv hlen hsize J.max_chunk_pos J.max_chunk_dvd (J.reads _), hbig,
    getIV_image hlen, fun args hs hf => ?_⟩
  rw [decryptFile_eq (J := J.reading args (J.image iv) hs hf) hbig h64
    (reading_headerSize hs hf hinv hlen (by omega)) (reading_storedTag hs hf hlen),
    reading_plaintext hs hf hinv hlen, padded, List.take_left]

theorem round_trip_sample : ∃ file,
    encryptFile (Skein3fish.sampleJob true Skein3fish.sampleText) MAX_CHUNK_SIZE = some file ∧
      isGreaterThanThreeBlocks file.length .Skein256 = true ∧
      getIV file .Skein256 = some [10, 11, 12, 13] ∧
      ∀ (args : Arguments) (hs : args.state_size = .Skein256) (hf : args.file_size = file.length),
        decryptFile ((Skein3fish.sampleJob true Skein3fish.sampleText).reading args file hs hf) =
          some ⟨some 3, none, [1, 2, 3]⟩ :=
  round_trip (Skein3fish.sampleJob true Skein3fish.sampleText) (Skein3fish.threefish_inverts _) rfl rfl
    (by decide) (by decide)

end Image

end Threefizer
