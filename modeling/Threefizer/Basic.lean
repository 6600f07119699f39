/-
# The data of the program

The constants, the chunk and its actions, the primitives the program calls
(Threefish on one block, Skein as a running MAC), and what all threads share:
the flags `running` and `valid`, the error word and the size read from a
decrypted header.

The two primitives are parameters. Of Threefish the model uses that it maps
blocks to blocks; that decryption undoes encryption under the same key is the
separate predicate `Threefish.Inverts`. Of Skein it uses that feeding two
runs of bytes one after the other is feeding them at once.
-/
import Threefizer.Lib.Words

namespace Threefizer

open Words

/-! ### Sizes and constants -/

/-- `SkeinSize_t`: the state sizes, in bits. -/
inductive SkeinSize
  | Skein256 | Skein512 | Skein1024
  deriving DecidableEq, Repr

namespace SkeinSize

def bits : SkeinSize → ℕ
  | Skein256 => 256
  | Skein512 => 512
  | Skein1024 => 1024

/-- `state_size/8`, the bytes of a block. -/
def bytes (s : SkeinSize) : ℕ := s.bits / 8

/-- `state_size/64`, the words of a block. -/
def words (s : SkeinSize) : ℕ := s.bits / 64

theorem bytes_eq (s : SkeinSize) : s.bytes = 8 * s.words := by cases s <;> rfl

theorem words_cases (s : SkeinSize) : s.words = 4 ∨ s.words = 8 ∨ s.words = 16 := by
  cases s <;> decide

theorem bytes_cases (s : SkeinSize) : s.bytes = 32 ∨ s.bytes = 64 ∨ s.bytes = 128 := by
  cases s <;> decide

theorem words_pos (s : SkeinSize) : 0 < s.words := by have := s.words_cases; omega

theorem bytes_pos (s : SkeinSize) : 0 < s.bytes := by have := s.bytes_cases; omega

end SkeinSize

/-- The capacity the controller gives its queues. -/
def QUE_SIZE : ℕ := 10

/-- The largest number of file bytes in one chunk, as shipped. -/
def MAX_CHUNK_SIZE : ℕ := 51200000

/-- The most bytes one `read` delivers on Linux. -/
def READ_MAX : ℕ := 0x7ffff000

/-- `getNumBlocks` returns on that length. -/
theorem READ_MAX_fits (s : SkeinSize) : READ_MAX + s.bytes ≤ 2 ^ 32 := by cases s <;> decide

/-- The header of an encrypted file is read at once. -/
theorem two_blocks_read (s : SkeinSize) : 2 * s.bytes ≤ READ_MAX := by cases s <;> decide

theorem block_read (s : SkeinSize) : s.bytes ≤ READ_MAX :=
  (Nat.le_mul_of_pos_left _ Nat.two_pos).trans (two_blocks_read s)

def MAGIC_NUMBER : Word := 0x0909202009092009
def V1 : Word := 0x7256736572766564
def V2 : Word := 0x5077073467643229

/-! ### Errors -/

/-- The codes of `error.h` a run can end with. -/
inductive Error
  | CIPHER_OPERATION_FAIL | FILE_IO_FAIL | FILE_TOO_SMALL | HEADER_CHECK_FAIL
  | KEY_GENERATION_FAIL | MAC_CHECK_FAIL | MAC_GENERATION_FAIL | MEMORY_ALLOCATION_FAIL
  | QUEUE_OPERATION_FAIL
  deriving DecidableEq, Repr

/-- The number of an error. -/
def Error.code : Error → ℤ
  | CIPHER_OPERATION_FAIL => -2
  | FILE_IO_FAIL => -3
  | FILE_TOO_SMALL => -4
  | HEADER_CHECK_FAIL => -5
  | KEY_GENERATION_FAIL => -9
  | MAC_CHECK_FAIL => -10
  | MAC_GENERATION_FAIL => -11
  | MEMORY_ALLOCATION_FAIL => -12
  | QUEUE_OPERATION_FAIL => -15

/-! ### Chunks -/

/-- The action of a chunk: what is to be done to its data. -/
inductive Action
  | ENCRYPT | CHECK_HEADER | DECRYPT | GEN_MAC | DONE | MAC | WRITE | INIT
  deriving DecidableEq, Repr

/-- `chunk`: an action, the words `data` points to (none for a null pointer)
and their size in bytes. -/
structure Chunk where
  action : Action
  data : List Word
  data_size : ℕ
  deriving DecidableEq, Repr

/-- `createChunk()`. -/
def createChunk : Chunk := ⟨.INIT, [], 0⟩

/-- The chunk `queueDone` puts into a queue. -/
def doneChunk : Chunk := { createChunk with action := .DONE }

@[simp] theorem doneChunk_action : doneChunk.action = .DONE := rfl

/-- The first `data_size` bytes of a chunk's data. -/
def Chunk.bytes (c : Chunk) : List Byte := (bytesOf c.data).take c.data_size

/-! ### The primitives -/

/-- `ThreefishKey_t`. -/
structure ThreefishKey where
  stateSize : SkeinSize
  key : List Word
  tweak : List Word
  deriving DecidableEq, Repr

/-- Threefish on one block. -/
structure Threefish where
  threefishEncryptBlockWords : ThreefishKey → List Word → List Word
  threefishDecryptBlockWords : ThreefishKey → List Word → List Word
  encrypt_length : ∀ k b, b.length = k.stateSize.words →
    (threefishEncryptBlockWords k b).length = k.stateSize.words
  decrypt_length : ∀ k b, b.length = k.stateSize.words →
    (threefishDecryptBlockWords k b).length = k.stateSize.words

/-- Decryption undoes encryption under the key `k`. -/
def Threefish.Inverts (tf : Threefish) (k : ThreefishKey) : Prop :=
  ∀ b, b.length = k.stateSize.words →
    tf.threefishDecryptBlockWords k (tf.threefishEncryptBlockWords k b) = b

/-- Skein as a MAC: a context made from the MAC key, fed with bytes, asked
for the digest once. -/
structure Skein where
  Ctx : Type
  skeinMacInit : SkeinSize → List Word → Ctx
  skeinUpdate : Ctx → List Byte → Ctx
  skeinFinal : Ctx → List Word
  update_append : ∀ c a b, skeinUpdate (skeinUpdate c a) b = skeinUpdate c (a ++ b)
  final_length : ∀ s k a, (skeinFinal (skeinUpdate (skeinMacInit s k) a)).length = s.words

/-- The SkeinMAC of `a` under the MAC key `k`. -/
def Skein.tag (sk : Skein) (s : SkeinSize) (k : List Word) (a : List Byte) : List Word :=
  sk.skeinFinal (sk.skeinUpdate (sk.skeinMacInit s k) a)

/-- `MacCtx_t`. -/
structure MacCtx (sk : Skein) where
  skein_context : sk.Ctx
  out_action : Action
  digest_byte_size : ℕ

/-- `InitMacCtx`. -/
def InitMacCtx (sk : Skein) (encrypt : Bool) (state_size : SkeinSize) (mac_key : List Word) :
    MacCtx sk where
  skein_context := sk.skeinMacInit state_size mac_key
  out_action := if encrypt then .DECRYPT else .WRITE
  digest_byte_size := state_size.bytes

/-! ### The arguments -/

/-- A path of the file system. -/
abbrev Path := List Byte

/-- The fields of `arguments` that are read once the keys are made. -/
structure Arguments where
  rename_file : Path
  target_file : Path
  iv : Option (List Word)
  file_size : ℕ
  state_size : SkeinSize
  encrypt : Bool
  legacy_hash : Bool
  rename : Bool
  deriving DecidableEq, Repr

/-- `isGreaterThanThreeBlocks`. -/
def isGreaterThanThreeBlocks (file_size : ℕ) (s : SkeinSize) : Bool :=
  decide (file_size > s.bytes * 3)

/-- What a run works on: the primitives, the arguments and the keys made from
them, the content of the target file, the capacity of the queues, the chunk
size, which is whole blocks and no more than one `read` delivers, and the name
of the temp file. -/
structure Job where
  tf : Threefish
  sk : Skein
  args : Arguments
  tf_key : ThreefishKey
  mac_key : List Word
  file : List Byte
  que_size : ℕ
  max_chunk : ℕ
  temp_file_name : Path
  state_size_eq : args.state_size = tf_key.stateSize
  file_size_eq : args.file_size = file.length
  max_chunk_pos : 0 < max_chunk
  max_chunk_dvd : tf_key.stateSize.bytes ∣ max_chunk
  max_chunk_reads : max_chunk ≤ READ_MAX

namespace Job

variable (J : Job)

/-- The state size of all the primitives. -/
abbrev state_size : SkeinSize := J.tf_key.stateSize

/-- The MAC when the threads start. -/
def mac_context : MacCtx J.sk := InitMacCtx J.sk J.args.encrypt J.state_size J.mac_key

/-- `getNumBlocks` returns on the chunk size. -/
theorem max_chunk_fits : J.max_chunk + J.tf_key.stateSize.bytes ≤ 2 ^ 32 :=
  (Nat.add_le_add_right J.max_chunk_reads _).trans (READ_MAX_fits _)

/-- One `read` delivers a chunk, or all there is. -/
theorem reads (n : ℕ) : min n J.max_chunk ≤ READ_MAX := (min_le_right _ _).trans J.max_chunk_reads

/-- Where the writer renames the temp file to. -/
def destination : Path := if J.args.rename then J.args.rename_file else J.args.target_file

end Job

/-- The shipped chunk size is one a `Job` can have. -/
theorem MAX_CHUNK_SIZE_ok (s : SkeinSize) :
    0 < MAX_CHUNK_SIZE ∧ s.bytes ∣ MAX_CHUNK_SIZE ∧ MAX_CHUNK_SIZE ≤ READ_MAX := by
  cases s <;> decide

/-! ### What the threads share -/

/-- The words every thread sees: `running`, `valid`, `error` (none for 0) and
`new_file_size` of `runThreefizer`. -/
structure Flags where
  running : Bool
  valid : Bool
  error : Option Error
  new_file_size : ℕ
  deriving DecidableEq, Repr

/-- The flags when the threads start. -/
def Flags.init : Flags := ⟨true, false, none, 0⟩

/-- What a step may do to `running` and the error word: it does not set the one
and does not clear the other. -/
def Flags.Later (fl fl' : Flags) : Prop :=
  (fl'.running = true → fl.running = true) ∧ (fl'.error = none → fl.error = none)

theorem Flags.later_of_error {fl fl' : Flags}
    (h : fl' = fl ∨ ∃ code, fl' = { fl with error := some code }) : fl.Later fl' := by
  rcases h with rfl | ⟨code, rfl⟩
  · exact ⟨id, id⟩
  · exact ⟨id, nofun⟩

theorem Flags.running_of_error {fl fl' : Flags}
    (h : fl' = fl ∨ ∃ code, fl' = { fl with error := some code }) : fl'.running = fl.running := by
  rcases h with rfl | ⟨code, rfl⟩ <;> rfl

theorem Flags.size_of_error {fl fl' : Flags}
    (h : fl' = fl ∨ ∃ code, fl' = { fl with error := some code }) :
    fl'.valid = fl.valid ∧ fl'.new_file_size = fl.new_file_size := by
  rcases h with rfl | ⟨code, rfl⟩ <;> exact ⟨rfl, rfl⟩

/-- `a + b` and `a - b` in 64 bits. -/
def add64 (a b : ℕ) : ℕ := (a + b) % 2 ^ 64

@[inherit_doc add64]
def sub64 (a b : ℕ) : ℕ := (a + 2 ^ 64 - b) % 2 ^ 64

theorem add64_eq {a b : ℕ} (h : a + b < 2 ^ 64) : add64 a b = a + b := Nat.mod_eq_of_lt h

theorem sub64_eq {a b : ℕ} (h : b ≤ a) (ha : a < 2 ^ 64) : sub64 a b = a - b := by
  unfold sub64; omega

/-- How a call that can fail ends: an `open`, a `calloc`, a `rename`, or a
`write` that fails after some bytes reached the file. -/
inductive Outcome
  | success
  | failure (written : ℕ)
  deriving DecidableEq, Repr

end Threefizer
