/-
# The header (`tfHeader.c`, `encrypt.c`, `decrypt.c`)

A header is two blocks: the initialization vector and a block with the magic
number, the size of the plain text, the state size and the version, filled up
with zeros. Only the second block is encrypted, with the first as its chain.
Decrypting an encrypted header gives the header back (`decrypt_encryptHeader`)
and the check of a generated header reads the size that was put in
(`checkHeader_block`).
-/
import Threefizer.CbcMode
import Threefizer.ChunkQueue

namespace Threefizer

open Words

/-- `checkHeader`: the size it stores when it accepts. -/
def checkHeader (header : List Word) (state_size : SkeinSize) : Option ℕ :=
  let iv_offset := state_size.words
  if header.getD (iv_offset + 0) 0 = MAGIC_NUMBER ∧
      header.getD (iv_offset + 2) 0 = UInt64.ofNat state_size.bits then
    some (header.getD (iv_offset + 1) 0).toNat
  else none

/-- `genHeader`; none when it returns a null pointer. -/
def genHeader (iv : Option (List Word)) (data_size : ℕ) (state_size : SkeinSize) (version : ℕ) :
    Option (List Word) :=
  match iv with
  | none => none
  | some iv =>
    if data_size > 1 ∧ (version > 0 ∧ version ≤ 2) then
      some (iv.take state_size.words ++
        [MAGIC_NUMBER, UInt64.ofNat data_size, UInt64.ofNat state_size.bits,
          if version = 1 then V1 else V2] ++ List.replicate (state_size.words - 4) 0)
    else none

/-- `stripIV`: the header without its first block. -/
def stripIV (header : List Word) (state_size : SkeinSize) : List Word :=
  header.drop state_size.words

/-- `encryptHeader`; none when it returns false. -/
def encryptHeader (tf : Threefish) (key : ThreefishKey) (header : List Word) : Option (List Word) :=
  if header = [] then none
  else some (header.take key.stateSize.words ++
    encryptInPlace tf key (header.take key.stateSize.words) (stripIV header key.stateSize) 1)

/-- `decryptHeader`; none when it returns false. -/
def decryptHeader (tf : Threefish) (key : ThreefishKey) (header : List Word) : Option (List Word) :=
  if header = [] then none
  else some (header.take key.stateSize.words ++
    decryptInPlace tf key (header.take key.stateSize.words) (stripIV header key.stateSize) 1)

/-- The chunk `queueHeader` makes; its data is a null pointer when `genHeader`
returns one. -/
def headerChunk (args : Arguments) : Chunk :=
  let header_ver := if args.legacy_hash then 1 else 2
  { createChunk with
    action := .ENCRYPT
    data := (genHeader args.iv args.file_size args.state_size header_ver).getD []
    data_size := 2 * args.state_size.bytes }

/-- `queueHeader`: whether it succeeds, and the queue after it. It does not
return when the queue is full. -/
def queueHeader (args : Arguments) (out : Queue) : Option (Bool × Queue) :=
  if args.iv = none then some (false, out)
  else if (headerChunk args).data = [] then some (false, out)
  else (out.enque (headerChunk args)).map fun q => (true, q)

/-! ### The header block -/

/-- The second block of a header. -/
def headerBlock (data_size : ℕ) (s : SkeinSize) (version : ℕ) : List Word :=
  [MAGIC_NUMBER, UInt64.ofNat data_size, UInt64.ofNat s.bits, if version = 1 then V1 else V2] ++
    List.replicate (s.words - 4) 0

@[simp] theorem length_headerBlock (n : ℕ) (s : SkeinSize) (v : ℕ) :
    (headerBlock n s v).length = s.words := by
  have := s.words_cases
  simp [headerBlock]; omega

theorem genHeader_eq {iv : List Word} {n v : ℕ} {s : SkeinSize} (hiv : iv.length = s.words)
    (hn : 1 < n) (hv : v = 1 ∨ v = 2) :
    genHeader (some iv) n s v = some (iv ++ headerBlock n s v) := by
  have hc : n > 1 ∧ (v > 0 ∧ v ≤ 2) := by omega
  simp only [genHeader, if_pos hc]
  rw [← hiv, List.take_length, List.append_assoc, hiv, headerBlock]

/-- `genHeader` makes a header for a file of more than one byte. -/
theorem genHeader_some (iv : List Word) (n v : ℕ) (s : SkeinSize) (hv : v = 1 ∨ v = 2) :
    genHeader (some iv) n s v = if 1 < n then some (iv.take s.words ++ headerBlock n s v) else none := by
  have hc : (n > 1 ∧ (v > 0 ∧ v ≤ 2)) = (1 < n) := by
    rw [eq_iff_iff]
    omega
  simp only [genHeader, hc, headerBlock, List.append_assoc]

/-- So does `queueHeader`, on a queue with room; otherwise it fails. -/
theorem queueHeader_of_room {args : Arguments} {iv : List Word} {out : Queue} (hiv : args.iv = some iv)
    (hroom : out.HasRoom) : (1 < args.file_size → ∃ q, queueHeader args out = some (true, q)) ∧
      (args.file_size ≤ 1 → queueHeader args out = some (false, out)) := by
  have hv : (if args.legacy_hash then 1 else 2) = 1 ∨ (if args.legacy_hash then 1 else 2) = 2 := by
    cases args.legacy_hash <;> simp
  have hgen := genHeader_some iv args.file_size _ args.state_size hv
  constructor
  · intro hn
    have hdata : (headerChunk args).data ≠ [] := by
      have hlen := length_headerBlock args.file_size args.state_size (if args.legacy_hash then 1 else 2)
      have hpos := args.state_size.words_pos
      simp only [headerChunk, hiv, hgen, if_pos hn, Option.getD_some]
      exact List.append_ne_nil_of_right_ne_nil _ (List.ne_nil_of_length_pos (by omega))
    obtain ⟨q, hq⟩ := Queue.enque_of_room (headerChunk args) hroom
    exact ⟨q, by rw [queueHeader, hiv, if_neg (Option.some_ne_none iv), if_neg hdata, hq]; rfl⟩
  · intro hn
    have hdata : (headerChunk args).data = [] := by
      simp only [headerChunk, hiv, hgen, if_neg (Nat.not_lt.mpr hn), Option.getD_none]
    rw [queueHeader, hiv, if_neg (Option.some_ne_none iv), if_pos hdata]

theorem queueHeader_locked {args : Arguments} {out q : Queue} (h : queueHeader args out = some (true, q)) :
    q.locked = out.locked := by
  unfold queueHeader at h
  split at h
  · cases h
  · split at h
    · cases h
    · obtain ⟨q', hq, hx⟩ := Option.map_eq_some_iff.mp h
      cases hx
      exact (Queue.enque_eq_some hq).2.2

/-- A size the check reads is a 64-bit number. -/
theorem checkHeader_lt {header : List Word} {s : SkeinSize} {n : ℕ} (h : checkHeader header s = some n) :
    n < 2 ^ 64 := by
  simp only [checkHeader] at h
  split at h
  · cases h; exact UInt64.toNat_lt _
  · cases h

/-- The check reads the size of a header it accepts. -/
theorem checkHeader_block {iv : List Word} {n v : ℕ} {s : SkeinSize} (hiv : iv.length = s.words)
    (hn : n < 2 ^ 64) : checkHeader (iv ++ headerBlock n s v) s = some n := by
  have hget : ∀ i, (iv ++ headerBlock n s v).getD (s.words + i) 0 = (headerBlock n s v).getD i 0 := by
    intro i
    simp [List.getD_eq_getElem?_getD, List.getElem?_append_right, hiv]
  simp only [checkHeader, hget]
  have h1 : (headerBlock n s v).getD 0 0 = MAGIC_NUMBER := rfl
  have h2 : (headerBlock n s v).getD 2 0 = UInt64.ofNat s.bits := rfl
  have h3 : (headerBlock n s v).getD 1 0 = UInt64.ofNat n := rfl
  rw [h1, h2, h3, if_pos ⟨rfl, rfl⟩, UInt64.toNat_ofNat_of_lt' hn]

section Primitives

variable {tf : Threefish} {key : ThreefishKey} {iv b : List Word}

theorem header_ne_nil (iv : List Word) {b : List Word} (hb : b.length = key.stateSize.words) : iv ++ b ≠ [] := by
  intro h
  have := key.stateSize.words_pos
  rw [← hb, (List.append_eq_nil_iff.mp h).2] at this
  exact lt_irrefl _ this

theorem encryptHeader_eq (hiv : iv.length = key.stateSize.words)
    (hb : b.length = key.stateSize.words) :
    encryptHeader tf key (iv ++ b) =
      some (iv ++ tf.threefishEncryptBlockWords key (xorBlock b iv)) := by
  have hne := header_ne_nil iv hb
  rw [encryptHeader, if_neg hne, stripIV, ← hiv, List.take_left, List.drop_left,
    encryptInPlace_eq hiv Nat.one_pos (by omega)]
  simp [blocks, Cbc.encrypt, ← hb]

theorem decryptHeader_eq (hiv : iv.length = key.stateSize.words)
    (hb : b.length = key.stateSize.words) :
    decryptHeader tf key (iv ++ b) =
      some (iv ++ xorBlock (tf.threefishDecryptBlockWords key b) iv) := by
  have hne := header_ne_nil iv hb
  rw [decryptHeader, if_neg hne, stripIV, ← hiv, List.take_left, List.drop_left,
    decryptInPlace_eq hiv (by omega)]
  simp [blocks, Cbc.decrypt, ← hb]

/-- An encrypted header decrypts to itself. -/
theorem decrypt_encryptHeader (hinv : tf.Inverts key) (hiv : iv.length = key.stateSize.words)
    (hb : b.length = key.stateSize.words) :
    (encryptHeader tf key (iv ++ b)).bind (decryptHeader tf key) = some (iv ++ b) := by
  have hx := length_xorBlock hb hiv
  rw [encryptHeader_eq hiv hb, Option.bind_some, decryptHeader_eq hiv (tf.encrypt_length key _ hx),
    hinv _ hx, xorBlock_cancel (hb.trans hiv.symm)]

end Primitives

end Threefizer
