/-
# The check of a header chunk (`headerIsValid` of `tfHeader.c`)

`headerIsValid` decrypts a copy of the header and checks the copy. What it
returns is a flag that is true from the start and is set to true again where
the check passes, but not to false where it fails. So a header that the check
rejects is reported as valid too, and the result says only whether there was
memory for the copy (`headerIsValid_valid`). No thread calls the function:
`authenticateMAC` has a check of its own, which does reject.
-/
import Threefizer.TfHeader
import Threefizer.Skein3fish

namespace Threefizer

open Words

/-- What `headerIsValid` leaves: its result, the chunk, and `*file_size`. -/
structure Validation where
  valid : Bool
  header : Option Chunk
  file_size : ℕ
  deriving DecidableEq, Repr

variable (tf : Threefish) (tf_key : ThreefishKey)

/-- `headerIsValid`; the outcome is that of the `calloc`. -/
def headerIsValid (header : Option Chunk) (file_size : ℕ) (o : Outcome) : Validation :=
  match header with
  | none => ⟨false, none, file_size⟩
  | some c =>
    let success := true
    match o with
    | .failure _ => ⟨false, some c, file_size⟩
    | .success =>
      match decryptHeader tf tf_key (wordsOf c.bytes) with
      | some header_copy =>
        match checkHeader header_copy tf_key.stateSize with
        | some size => ⟨true, some { c with action := .GEN_MAC }, size⟩
        -- the error is printed, but `success` stays as it is
        | none => ⟨success, some c, file_size⟩
      | none => ⟨success, some c, file_size⟩

/-! ### What it should report -/

/-- The chunk holds two blocks. -/
structure TwoBlocks (s : SkeinSize) (c : Chunk) : Prop where
  length : c.data.length = 2 * s.words
  size : c.data_size = 2 * s.bytes

/-- `decryptHeader` and then `checkHeader` on a copy of the chunk's data: the
size the check stores; none when there is no copy, or when one of the two
returns false. -/
def checkCopy (c : Chunk) (o : Outcome) : Option ℕ :=
  match o with
  | .success => (decryptHeader tf tf_key c.data).bind fun header => checkHeader header tf_key.stateSize
  | .failure _ => none

/-- The result is that of the check; a chunk that is not valid is left as it
is, with `*file_size`; and the data of a chunk is never touched. -/
structure ReportsCheck (c : Chunk) (file_size : ℕ) (o : Outcome) : Prop where
  valid : (headerIsValid tf tf_key (some c) file_size o).valid = true ↔ (checkCopy tf tf_key c o).isSome = true
  rejected : (headerIsValid tf tf_key (some c) file_size o).valid = false →
    (headerIsValid tf tf_key (some c) file_size o).header.map Chunk.action = some c.action ∧
      (headerIsValid tf tf_key (some c) file_size o).file_size = file_size
  data : ∃ c', (headerIsValid tf tf_key (some c) file_size o).header = some c' ∧ c'.data = c.data ∧
    c'.data_size = c.data_size

/-- The second block, decrypted with the first as its chain. -/
def decryptedBlock (c : Chunk) : List Word :=
  xorBlock (tf.threefishDecryptBlockWords tf_key (c.data.drop tf_key.stateSize.words))
    (c.data.take tf_key.stateSize.words)

/-- The decrypted block has the magic number and the state size. -/
def Genuine (c : Chunk) : Prop :=
  (decryptedBlock tf tf_key c).getD 0 0 = MAGIC_NUMBER ∧
    (decryptedBlock tf tf_key c).getD 2 0 = UInt64.ofNat tf_key.stateSize.bits

instance (c : Chunk) : Decidable (Genuine tf tf_key c) := inferInstanceAs (Decidable (_ ∧ _))

variable {tf tf_key} {c : Chunk} {file_size : ℕ} {o : Outcome}

/-- A chunk of two blocks is copied in full. -/
theorem TwoBlocks.copy {s : SkeinSize} (hc : TwoBlocks s c) : wordsOf c.bytes = c.data := by
  have hlen : (bytesOf c.data).length = c.data_size := by
    rw [length_bytesOf, hc.length, hc.size, s.bytes_eq]
    ring
  rw [Chunk.bytes, ← hlen, List.take_length, wordsOf_bytesOf]

/-- The check looks at two words of the decrypted block. -/
theorem isSome_checkHeader {iv b : List Word} {s : SkeinSize} (hiv : iv.length = s.words) :
    (checkHeader (iv ++ b) s).isSome = true ↔ b.getD 0 0 = MAGIC_NUMBER ∧ b.getD 2 0 = UInt64.ofNat s.bits := by
  have hget : ∀ i, (iv ++ b).getD (s.words + i) 0 = b.getD i 0 := fun i => by
    simp [List.getD_eq_getElem?_getD, List.getElem?_append_right, hiv]
  simp only [checkHeader, hget]
  split
  next h => exact iff_of_true rfl h
  next h => exact iff_of_false Bool.false_ne_true h

/-- The check accepts a copy of a chunk of two blocks that is genuine. -/
theorem isSome_checkCopy (hc : TwoBlocks tf_key.stateSize c) :
    (checkCopy tf tf_key c .success).isSome = true ↔ Genuine tf tf_key c := by
  have hlen := hc.length
  have hiv : (c.data.take tf_key.stateSize.words).length = tf_key.stateSize.words := by
    rw [List.length_take]; omega
  have hb : (c.data.drop tf_key.stateSize.words).length = tf_key.stateSize.words := by
    rw [List.length_drop]; omega
  have hdec := @decryptHeader_eq tf tf_key _ _ hiv hb
  rw [List.take_append_drop] at hdec
  rw [checkCopy, hdec, Option.bind_some, isSome_checkHeader hiv]
  rfl

/-! ### What it reports -/

/-- With memory for the copy the result is true, whatever the check says. -/
theorem headerIsValid_success (hc : TwoBlocks tf_key.stateSize c) (file_size : ℕ) :
    headerIsValid tf tf_key (some c) file_size .success =
      match checkCopy tf tf_key c .success with
      | some size => ⟨true, some { c with action := .GEN_MAC }, size⟩
      | none => ⟨true, some c, file_size⟩ := by
  simp only [headerIsValid, checkCopy, hc.copy]
  cases decryptHeader tf tf_key c.data with
  | none => rfl
  | some header_copy => rfl

theorem headerIsValid_valid (hc : TwoBlocks tf_key.stateSize c) :
    (headerIsValid tf tf_key (some c) file_size o).valid = true ↔ o = .success := by
  cases o with
  | failure k => exact iff_of_false Bool.false_ne_true Outcome.noConfusion
  | success =>
    refine iff_of_true ?_ rfl
    rw [headerIsValid_success hc]
    split <;> rfl

/-- The data of the chunk stays as it is. -/
theorem headerIsValid_data (hc : TwoBlocks tf_key.stateSize c) :
    ∃ c', (headerIsValid tf tf_key (some c) file_size o).header = some c' ∧ c'.data = c.data ∧
      c'.data_size = c.data_size := by
  cases o with
  | failure k => exact ⟨c, rfl, rfl, rfl⟩
  | success =>
    rw [headerIsValid_success hc]
    split
    · exact ⟨_, rfl, rfl, rfl⟩
    · exact ⟨c, rfl, rfl, rfl⟩

/-- **`headerIsValid` reports the header check exactly on the headers that pass
it**, and where there is no memory for the copy. -/
theorem headerIsValid_reports_iff (tf : Threefish) (tf_key : ThreefishKey) (c : Chunk) (file_size : ℕ)
    (o : Outcome) (hc : TwoBlocks tf_key.stateSize c) :
    ReportsCheck tf tf_key c file_size o ↔ (o = .success → Genuine tf tf_key c) := by
  constructor
  · rintro h rfl
    rw [← isSome_checkCopy hc, ← h.valid]
    exact (headerIsValid_valid hc).mpr rfl
  · intro h
    refine ⟨?_, fun hfalse => ?_, headerIsValid_data hc⟩
    · rw [headerIsValid_valid hc]
      constructor
      · rintro rfl
        exact (isSome_checkCopy hc).mpr (h rfl)
      · cases o with
        | success => exact fun _ => rfl
        | failure k => exact fun hsome => absurd hsome Bool.false_ne_true
    · cases o with
      | success =>
        have htrue : (headerIsValid tf tf_key (some c) file_size .success).valid = true :=
          (headerIsValid_valid hc).mpr rfl
        exact absurd (hfalse.symm.trans htrue) Bool.false_ne_true
      | failure k => exact ⟨rfl, rfl⟩

/-- A key of Threefish-256. -/
def headerKey : ThreefishKey := Skein3fish.threefishSetKey .Skein256 [1, 2, 3, 4] 0 0

/-- A header for a file of 100 bytes, encrypted. -/
def genuineHeader : Chunk where
  action := .CHECK_HEADER
  data := (encryptHeader Skein3fish.threefish headerKey ([5, 6, 7, 8] ++ headerBlock 100 .Skein256 2)).getD []
  data_size := 64

theorem headerIsValid_reports_sample : TwoBlocks headerKey.stateSize genuineHeader ∧
    ReportsCheck Skein3fish.threefish headerKey genuineHeader 0 .success := by
  have hc : TwoBlocks headerKey.stateSize genuineHeader := ⟨by decide +kernel, by decide⟩
  exact ⟨hc, (headerIsValid_reports_iff Skein3fish.threefish headerKey genuineHeader 0 .success hc).mpr
    fun _ => by decide +kernel⟩

/-- Eight words of zeros. -/
def zeroHeader : Chunk := ⟨.CHECK_HEADER, List.replicate 8 0, 64⟩

/-- A chunk of zeros is no header, and is reported as valid. -/
theorem zeros_reported_valid : TwoBlocks headerKey.stateSize zeroHeader ∧
    checkCopy Skein3fish.threefish headerKey zeroHeader .success = none ∧
      (headerIsValid Skein3fish.threefish headerKey (some zeroHeader) 7 .success).valid = true ∧
      ¬ ReportsCheck Skein3fish.threefish headerKey zeroHeader 7 .success := by
  have hcheck : checkCopy Skein3fish.threefish headerKey zeroHeader .success = none := by decide +kernel
  have hvalid : (headerIsValid Skein3fish.threefish headerKey (some zeroHeader) 7 .success).valid = true := by
    decide +kernel
  refine ⟨⟨by decide, by decide⟩, hcheck, hvalid, fun h => ?_⟩
  have hsome := h.valid.mp hvalid
  rw [hcheck] at hsome
  exact Bool.false_ne_true hsome

end Threefizer
