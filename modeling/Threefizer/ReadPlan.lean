/-
# How a file is cut into chunks

For encryption the file is cut at the multiples of the chunk size; for
decryption the header comes first, then the ciphertext cut in the same way,
then the tag. Every piece is padded on its own. Because the chunk size is a
whole number of blocks only the last piece can need padding, so the padded
pieces in order are the padded file (`flatMap_padded_pieces`).

* `encryptReader_reads`, `decryptReader_reads`: what the readers read;
* `queueFile_encrypt`, `queueFile_decrypt`: what they put out alone;
* `queueFile_none`: a chunk longer than one `read` delivers is never put out.
-/
import Threefizer.ReadThread

namespace Threefizer

open Words Queue

/-! ### Pieces -/

/-- `⌈n / m⌉`. -/
def pieceCount (n m : ℕ) : ℕ := (n + (m - 1)) / m

/-- A list cut at the multiples of `m`. -/
def pieces (m : ℕ) (l : List Byte) : List (List Byte) := blocks m (pieceCount l.length m) l

@[simp] theorem length_pieces (m : ℕ) (l : List Byte) :
    (pieces m l).length = pieceCount l.length m := length_blocks _ _ _

theorem pieceCount_zero {m : ℕ} (hm : 0 < m) : pieceCount 0 m = 0 :=
  Nat.div_eq_of_lt (by omega)

theorem pieceCount_pos {n m : ℕ} (hm : 0 < m) (hn : 0 < n) :
    pieceCount n m = pieceCount (n - m) m + 1 := by
  unfold pieceCount
  by_cases h : m ≤ n
  · rw [show n + (m - 1) = n - m + (m - 1) + m by omega, Nat.add_div_right _ hm]
  · rw [show n - m = 0 by omega, Nat.zero_add, Nat.div_eq_of_lt (by omega : m - 1 < m),
      Nat.div_eq_of_lt_le (k := 1) (by omega) (by omega)]

theorem pieceCount_le {n m : ℕ} (hm : 0 < m) : pieceCount n m ≤ n := by
  rcases Nat.eq_zero_or_pos n with rfl | hn
  · rw [pieceCount_zero hm]
  · rw [pieceCount, Nat.div_le_iff_le_mul_add_pred hm]
    have : 1 * n ≤ m * n := Nat.mul_le_mul_right _ hm
    omega

theorem pieces_nil {m : ℕ} (hm : 0 < m) : pieces m [] = [] := by
  rw [pieces, List.length_nil, pieceCount_zero hm]; rfl

theorem pieces_of_ne_nil {m : ℕ} {l : List Byte} (hm : 0 < m) (hl : 0 < l.length) :
    pieces m l = l.take m :: pieces m (l.drop m) := by
  rw [pieces, pieceCount_pos hm hl, blocks, pieces, List.length_drop]

/-- The pieces in order are the list. -/
theorem flatten_pieces {m : ℕ} (hm : 0 < m) (l : List Byte) : (pieces m l).flatten = l := by
  have hdiv := Nat.div_add_mod (l.length + (m - 1)) m
  have hmod := Nat.mod_lt (l.length + (m - 1)) hm
  have hle : l.length ≤ pieceCount l.length m * m := by
    rw [pieceCount, Nat.mul_comm]
    omega
  rw [pieces, flatten_blocks, List.take_of_length_le hle]

/-- The padded pieces in order are the padded list. -/
theorem flatMap_padded_pieces {m : ℕ} {s : SkeinSize} (hm : 0 < m) (hd : s.bytes ∣ m)
    (l : List Byte) : (pieces m l).flatMap (padded · s) = padded l s := by
  induction hn : l.length using Nat.strong_induction_on generalizing l with
  | _ n ih =>
    rcases Nat.eq_zero_or_pos l.length with h0 | hpos
    · rw [List.length_eq_zero_iff.mp h0, pieces_nil hm, @padded_of_dvd [] s (Nat.dvd_zero _)]
      rfl
    · rw [pieces_of_ne_nil hm hpos, List.flatMap_cons,
        ih (l.length - m) (by omega) (l.drop m) (by simp)]
      by_cases h : m ≤ l.length
      · obtain ⟨k, hk⟩ := hd
        have ht : (l.take m).length = m := by simp [h]
        have hlen : l.length = k * s.bytes + (l.length - m) := by rw [Nat.mul_comm, ← hk]; omega
        have hsub : blockCount l.length s * s.bytes - l.length =
            blockCount (l.length - m) s * s.bytes - (l.length - m) := by
          conv_lhs => rw [hlen, blockCount_add, Nat.add_mul]
          omega
        rw [padded_of_dvd (by rw [ht, hk]; exact Nat.dvd_mul_right _ _), padded, padded,
          List.length_drop, hsub, ← List.append_assoc, List.take_append_drop]
      · have h0 : l.drop m = [] := List.drop_eq_nil_of_le (by omega)
        rw [List.take_of_length_le (by omega), h0, @padded_of_dvd [] s (Nat.dvd_zero _),
          List.append_nil]

theorem mem_pieces {m : ℕ} (hm : 0 < m) {l p : List Byte} (hp : p ∈ pieces m l) :
    0 < p.length ∧ p.length ≤ min l.length m := by
  induction hn : l.length using Nat.strong_induction_on generalizing l with
  | _ n ih =>
    rcases Nat.eq_zero_or_pos l.length with h0 | hpos
    · rw [List.length_eq_zero_iff.mp h0, pieces_nil hm] at hp; cases hp
    · rw [pieces_of_ne_nil hm hpos] at hp
      rcases List.mem_cons.mp hp with rfl | hp
      · simp; omega
      · have := ih (l.length - m) (by omega) hp (by simp)
        omega

/-! ### Chunks -/

/-- A chunk with the padded bytes of a piece. -/
def dataChunk (action : Action) (s : SkeinSize) (piece : List Byte) : Chunk :=
  ⟨action, wordsOf (padded piece s), blockCount piece.length s * s.bytes⟩

/-- That chunk, with the number of file bytes it carries. -/
def carried (action : Action) (s : SkeinSize) (piece : List Byte) : Chunk × ℕ :=
  (dataChunk action s piece, piece.length)

@[simp] theorem map_carried (a : Action) (s : SkeinSize) (ps : List (List Byte)) :
    (ps.map (carried a s)).map (·.1) = ps.map (dataChunk a s) := by
  rw [List.map_map]; rfl

@[simp] theorem dataChunk_action (a : Action) (s : SkeinSize) (p : List Byte) :
    (dataChunk a s p).action = a := rfl

@[simp] theorem dataChunk_bytes (a : Action) (s : SkeinSize) (p : List Byte) :
    (dataChunk a s p).bytes = padded p s := by
  rw [Chunk.bytes, dataChunk, bytesOf_wordsOf (eight_dvd_padded p s)]
  exact List.take_of_length_le (length_padded p s).le

theorem countable_dataChunk (a : Action) {s : SkeinSize} {p : List Byte} (h : p.length + s.bytes ≤ 2 ^ 32) :
    Countable s (dataChunk a s p) :=
  countable_of_le (blockCount_mul_fits h)

theorem readChunk_eq {file : List Byte} {s : SkeinSize} {off n : ℕ} (a : Action) (h0 : 0 < n)
    (h : off + n ≤ file.length) (hn : n ≤ READ_MAX) :
    readChunk file s a off n = some (dataChunk a s ((file.drop off).take n)) := by
  have h32 : n + s.bytes ≤ 2 ^ 32 := (Nat.add_le_add_right hn _).trans (READ_MAX_fits s)
  have hlen : ((file.drop off).take n).length = n := by simp; omega
  have hpad : pad ((file.drop off).take n) n s = some (wordsOf (padded ((file.drop off).take n) s)) := by
    have := @pad_eq ((file.drop off).take n) s (by omega) (by omega)
    rwa [hlen] at this
  rw [readChunk, readBytes_eq h0 h hn, Option.bind_some, hpad, Option.bind_some, getPadSize_eq h32,
    Option.map_some, dataChunk, hlen]

theorem readChunk_none {file : List Byte} {s : SkeinSize} {off n : ℕ} (a : Action) (hn : READ_MAX < n) :
    readChunk file s a off n = none := by
  rw [readChunk, readBytes_none hn, Option.bind_none]

/-! ### The encryption side -/

section Encrypt

variable {file : List Byte} {s : SkeinSize} {m : ℕ}

/-- The chunks of a file to encrypt. -/
def encryptPlan (file : List Byte) (s : SkeinSize) (m : ℕ) : List Chunk :=
  (pieces m file).map (dataChunk .ENCRYPT s)

theorem encryptReader_carries_from (hm : 0 < m) (hread : min file.length m ≤ READ_MAX) :
    ∀ (k off : ℕ) (hd mac : Bool), file.length - off ≤ k → (encryptReader file s m).Carries ⟨off, hd, mac⟩
      ((pieces m (file.drop off)).map (carried .ENCRYPT s))
  | 0, off, hd, mac, hk => by
    have h0 : file.drop off = [] := List.drop_eq_nil_of_le (by omega)
    rw [h0, pieces_nil hm]
    exact .done (by simp [encryptReader]; omega)
  | k + 1, off, hd, mac, hk => by
    by_cases hoff : off < file.length
    · rw [pieces_of_ne_nil hm (by simpa using hoff), List.map_cons]
      have hmore : (encryptReader file s m).more ⟨off, hd, mac⟩ = true := by simp [encryptReader, hoff]
      by_cases hge : file.length - off ≥ m
      · refine .next (t := ⟨off + m, hd, mac⟩) hmore ?_ (by simp; omega) ?_
        · simp only [encryptReader, if_pos hge]
          rw [readChunk_eq _ hm (by omega) (by omega)]
          rfl
        · rw [List.drop_drop]
          exact encryptReader_carries_from hm hread k (off + m) hd mac (by omega)
      · refine .next (t := ⟨off + (file.length - off), hd, mac⟩) hmore ?_ (by simp; omega) ?_
        · simp only [encryptReader, if_neg hge]
          rw [readChunk_eq _ (by omega) (by omega) (by omega)]
          simp only [Option.map_some]
          rw [List.take_of_length_le (by simp), List.take_of_length_le (by simp; omega)]
        · rw [show (file.drop off).drop m = file.drop (off + (file.length - off)) by
            rw [List.drop_drop, List.drop_eq_nil_of_le (by omega), List.drop_eq_nil_of_le (by omega)]]
          exact encryptReader_carries_from hm hread k _ hd mac (by omega)
    · have h0 : file.drop off = [] := List.drop_eq_nil_of_le (by omega)
      rw [h0, pieces_nil hm]
      exact .done (by simp [encryptReader]; omega)

theorem encryptReader_carries (hm : 0 < m) (hread : min file.length m ≤ READ_MAX) :
    (encryptReader file s m).Carries .init ((pieces m file).map (carried .ENCRYPT s)) := by
  have := encryptReader_carries_from (s := s) hm hread file.length 0 true false (by omega)
  rwa [List.drop_zero] at this

theorem encryptReader_reads (hm : 0 < m) (hread : min file.length m ≤ READ_MAX) :
    (encryptReader file s m).Reads .init (encryptPlan file s m) := by
  have := (encryptReader_carries (s := s) hm hread).reads
  rwa [map_carried] at this

/-- The chunks read are data, each short enough to be counted. -/
theorem encryptPlan_countable (hm : 0 < m) (h32 : m + s.bytes ≤ 2 ^ 32) {d : Chunk} (hd : d ∈ encryptPlan file s m) :
    d.action ≠ .DONE ∧ Countable s d := by
  obtain ⟨p, hp, rfl⟩ := List.mem_map.mp hd
  have := (mem_pieces hm hp).2
  exact ⟨nofun, countable_dataChunk _ (by omega)⟩

theorem queueFile_encrypt (hfile : file ≠ []) (hm : 0 < m) (hread : min file.length m ≤ READ_MAX) :
    (encryptReader file s m).queueFile file.length = some (encryptPlan file s m ++ [doneChunk]) := by
  have hts : (encryptReader file s m).tooSmall = false := by simp [encryptReader, hfile]
  rw [Reader.queueFile, hts, if_neg Bool.false_ne_true]
  refine (encryptReader_reads hm hread).readLoop _ ?_
  have := pieceCount_le (n := file.length) hm
  simp [encryptPlan]; omega

/-- The reader never gets past a first chunk that is too long to be read. -/
theorem queueFile_none (hfile : file ≠ []) (hread : READ_MAX < min file.length m) :
    (encryptReader file s m).queueFile file.length = none := by
  have hpos : 0 < file.length := List.length_pos_iff.mpr hfile
  have hts : (encryptReader file s m).tooSmall = false := by simp [encryptReader, hfile]
  have hmore : (encryptReader file s m).more .init = true := by
    simp [encryptReader, ReadState.init, hpos]
  have hnext : (encryptReader file s m).next .init = none := by
    simp only [encryptReader, ReadState.init, Nat.sub_zero]
    split
    · rw [readChunk_none _ (by omega)]; rfl
    · rw [readChunk_none _ (by omega)]; rfl
  rw [Reader.queueFile, hts, if_neg Bool.false_ne_true, Reader.readLoop, if_pos hmore, hnext]
  rfl

end Encrypt

/-! ### The decryption side -/

section Decrypt

/-- The header of an encrypted file. -/
def headerPart (file : List Byte) (s : SkeinSize) : List Byte := file.take (2 * s.bytes)

/-- What lies between the header and the tag. -/
def dataPart (file : List Byte) (s : SkeinSize) : List Byte :=
  (file.drop (2 * s.bytes)).take (file.length - s.bytes - 2 * s.bytes)

/-- The last block. -/
def macPart (file : List Byte) (s : SkeinSize) : List Byte := file.drop (file.length - s.bytes)

/-- The chunk with the header. -/
def checkChunk (file : List Byte) (s : SkeinSize) : Chunk :=
  dataChunk .CHECK_HEADER s (headerPart file s)

/-- The chunks between the header and the tag. -/
def macPlan (file : List Byte) (s : SkeinSize) (m : ℕ) : List Chunk :=
  (pieces m (dataPart file s)).map (dataChunk .GEN_MAC s)

/-- The chunk with the stored tag. -/
def macChunk (file : List Byte) (s : SkeinSize) : Chunk := dataChunk .MAC s (macPart file s)

/-- The chunks of a file to decrypt. -/
def decryptPlan (file : List Byte) (s : SkeinSize) (m : ℕ) : List Chunk :=
  checkChunk file s :: macPlan file s m ++ [macChunk file s]

variable {file : List Byte} {s : SkeinSize} {m : ℕ}

theorem isGreaterThanThreeBlocks_iff {n : ℕ} : isGreaterThanThreeBlocks n s = true ↔ s.bytes * 3 < n := by
  simp [isGreaterThanThreeBlocks]

theorem length_headerPart (hbig : isGreaterThanThreeBlocks file.length s = true) :
    (headerPart file s).length = 2 * s.bytes := by
  have := isGreaterThanThreeBlocks_iff.mp hbig
  rw [headerPart, List.length_take]
  omega

theorem length_dataPart (hbig : isGreaterThanThreeBlocks file.length s = true) :
    (dataPart file s).length = file.length - 3 * s.bytes := by
  have := isGreaterThanThreeBlocks_iff.mp hbig
  rw [dataPart, List.length_take, List.length_drop]
  omega

theorem length_macPart (hbig : isGreaterThanThreeBlocks file.length s = true) :
    (macPart file s).length = s.bytes := by
  have := isGreaterThanThreeBlocks_iff.mp hbig
  rw [macPart, List.length_drop]
  omega

/-- From `off` on, past the header: pieces up to the last block, and that. -/
theorem decryptReader_carries_from (hm : 0 < m) (h64 : file.length + 2 * s.bytes < 2 ^ 64) :
    ∀ (k off : ℕ), off + s.bytes ≤ file.length → file.length - off ≤ k →
      min (file.length - s.bytes - off) m ≤ READ_MAX →
      (decryptReader file s m).Carries ⟨off, false, false⟩
        ((pieces m ((file.drop off).take (file.length - s.bytes - off))).map (carried .GEN_MAC s) ++
          [carried .MAC s (macPart file s)])
  | 0, off, hoff, hk, _ => by have := s.bytes_pos; omega
  | k + 1, off, hoff, hk, hread => by
    have hB := s.bytes_pos
    have hmore : (decryptReader file s m).more ⟨off, false, false⟩ = true := by
      simp [decryptReader]; omega
    have hleft : sub64 file.length (add64 off s.bytes) = file.length - s.bytes - off := by
      rw [add64_eq (by omega), sub64_eq hoff (by omega)]; omega
    set left := file.length - s.bytes - off with hl
    rcases Nat.eq_zero_or_pos left with h0 | hpos
    · -- only the tag is left
      rw [h0, List.take_zero, pieces_nil hm, List.map_nil, List.nil_append]
      have hlt : ¬ left ≥ m := by omega
      have hgt : ¬ (left < m ∧ left > 0) := by omega
      refine .next (t := ⟨off + s.bytes, false, true⟩) hmore ?_ ?_ (.done ?_)
      · simp only [decryptReader, hleft, if_neg hlt, if_neg hgt, Bool.false_eq_true, if_false, if_true]
        rw [readChunk_eq _ hB hoff (by have := two_blocks_read s; omega)]
        simp only [Option.map_some, macPart]
        rw [show off = file.length - s.bytes by omega,
          List.take_of_length_le (by rw [List.length_drop]; omega)]
      · simp only [macPart, List.length_drop]; omega
      · simp [decryptReader]; omega
    · have hne : 0 < ((file.drop off).take left).length := by simp; omega
      rw [pieces_of_ne_nil hm hne, List.map_cons, List.cons_append, List.take_take, List.drop_take]
      by_cases hge : left ≥ m
      · refine .next (t := ⟨off + m, false, false⟩) hmore ?_ (by simp; omega) ?_
        · simp only [decryptReader, hleft, if_pos hge, Bool.false_eq_true, if_false]
          rw [readChunk_eq _ hm (by omega) (by omega), Nat.min_eq_left hge]
          rfl
        · rw [List.drop_drop, show left - m = file.length - s.bytes - (off + m) by omega]
          exact decryptReader_carries_from hm h64 k (off + m) (by omega) (by omega) (by omega)
      · have hlt : left < m ∧ left > 0 := ⟨by omega, hpos⟩
        refine .next (t := ⟨off + left, false, false⟩) hmore ?_ (by simp; omega) ?_
        · simp only [decryptReader, hleft, if_neg hge, if_pos hlt, Bool.false_eq_true, if_false]
          rw [readChunk_eq _ hpos (by omega) (by omega), Nat.min_eq_right (by omega)]
          rfl
        · have h0 : left - m = 0 := by omega
          have := decryptReader_carries_from hm h64 k (off + left) (by omega) (by omega) (by omega)
          rw [show file.length - s.bytes - (off + left) = 0 by omega, List.take_zero] at this
          rwa [h0, List.take_zero]

theorem decryptReader_carries (hbig : isGreaterThanThreeBlocks file.length s = true) (hm : 0 < m)
    (hread : min (file.length - 3 * s.bytes) m ≤ READ_MAX) (h64 : file.length + 2 * s.bytes < 2 ^ 64) :
    (decryptReader file s m).Carries .init
      (carried .CHECK_HEADER s (headerPart file s) ::
        (pieces m (dataPart file s)).map (carried .GEN_MAC s) ++ [carried .MAC s (macPart file s)]) := by
  have hB := s.bytes_cases
  have hbig' : s.bytes * 3 < file.length := isGreaterThanThreeBlocks_iff.mp hbig
  have hhead : (headerPart file s).length = 2 * s.bytes := by
    rw [headerPart, List.length_take]
    omega
  refine .next (t := ⟨2 * s.bytes, false, false⟩) (by simp [decryptReader, ReadState.init]; omega) ?_
    (by simp [ReadState.init, hhead]) (decryptReader_carries_from hm h64 _ _ (by omega) le_rfl (by omega))
  simp only [decryptReader, ReadState.init, if_true]
  rw [readChunk_eq _ (by omega) (by omega) (by simpa using two_blocks_read s)]
  simp [headerPart]

theorem decryptReader_reads (hbig : isGreaterThanThreeBlocks file.length s = true) (hm : 0 < m)
    (hread : min (file.length - 3 * s.bytes) m ≤ READ_MAX) (h64 : file.length + 2 * s.bytes < 2 ^ 64) :
    (decryptReader file s m).Reads .init (decryptPlan file s m) := by
  have := (decryptReader_carries hbig hm hread h64).reads
  rwa [List.map_append, List.map_cons, map_carried] at this

theorem decryptPlan_countable (hm : 0 < m) (h32 : m + s.bytes ≤ 2 ^ 32) {d : Chunk} (hd : d ∈ decryptPlan file s m) :
    d.action ≠ .DONE ∧ Countable s d := by
  have hB := s.bytes_cases
  simp only [decryptPlan, List.cons_append, List.mem_cons, List.mem_append, List.not_mem_nil, or_false] at hd
  rcases hd with rfl | hd | rfl
  · refine ⟨nofun, countable_dataChunk _ ?_⟩
    simp only [headerPart, List.length_take]
    omega
  · obtain ⟨p, hp, rfl⟩ := List.mem_map.mp hd
    have := (mem_pieces hm hp).2
    exact ⟨nofun, countable_dataChunk _ (by omega)⟩
  · refine ⟨nofun, countable_dataChunk _ ?_⟩
    simp only [macPart, List.length_drop]
    omega

theorem queueFile_decrypt (hbig : isGreaterThanThreeBlocks file.length s = true) (hm : 0 < m)
    (hread : min (file.length - 3 * s.bytes) m ≤ READ_MAX) (h64 : file.length + 2 * s.bytes < 2 ^ 64) :
    (decryptReader file s m).queueFile file.length = some (decryptPlan file s m ++ [doneChunk]) := by
  have hts : (decryptReader file s m).tooSmall = false := by simp [decryptReader, hbig]
  rw [Reader.queueFile, hts, if_neg Bool.false_ne_true]
  refine (decryptReader_reads hbig hm hread h64).readLoop _ ?_
  have hbig' : s.bytes * 3 < file.length := isGreaterThanThreeBlocks_iff.mp hbig
  have := pieceCount_le (n := (dataPart file s).length) hm
  have hlen : (dataPart file s).length ≤ file.length - s.bytes - 2 * s.bytes := by
    simp [dataPart]
  have := s.bytes_cases
  simp [decryptPlan, macPlan]; omega

end Decrypt

end Threefizer
