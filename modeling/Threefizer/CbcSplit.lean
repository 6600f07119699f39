/-
# A message in pieces

`encryptQueue` and `decryptQueue` call the mode once for each chunk and hand
the chain on: encryption takes it out of the chunk it has just encrypted,
decryption has to save it before it decrypts, into one of two buffers chosen
by the parity of its count. However a message is cut into runs of whole
blocks, the result is that of one call on the whole of it (`split_eq_whole`).

The rounds are those of the two loops with `num_blocks` given, so runs of any
length are covered; on chunks that `getNumBlocks` can count they are the
rounds of the threads (`encryptQueue_runs`, `decryptQueue_runs`).
-/
import Threefizer.DecryptFile
import Threefizer.Skein3fish

namespace Threefizer

open Words

/-- A non-empty run of whole blocks. -/
structure Run (s : SkeinSize) where
  data : List Word
  num_blocks : ℕ
  nonempty : 0 < num_blocks
  whole : data.length = num_blocks * s.words

namespace Run

variable {s : SkeinSize}

/-- The blocks of a run. -/
def blocks (c : Run s) : List (List Word) := Words.blocks s.words c.num_blocks c.data

theorem flatten_blocks (c : Run s) : c.blocks.flatten = c.data := by
  rw [blocks, Words.flatten_blocks, ← c.whole, List.take_length]

theorem length_blocks (c : Run s) : c.blocks.length = c.num_blocks := Words.length_blocks ..

theorem blocks_ne_nil (c : Run s) : c.blocks ≠ [] := fun h => by
  have := c.length_blocks
  rw [h] at this
  exact absurd this c.nonempty.ne

theorem mem_blocks (c : Run s) : ∀ b ∈ c.blocks, b.length = s.words :=
  mem_blocks_length _ c.whole.ge

/-- The number of blocks of a list of runs. -/
def count (cs : List (Run s)) : ℕ := (cs.map num_blocks).sum

theorem count_cons (c : Run s) (cs : List (Run s)) : count (c :: cs) = c.num_blocks + count cs := by
  rw [count, List.map_cons, List.sum_cons]; rfl

theorem length_flatMap_data : ∀ cs : List (Run s), (cs.flatMap data).length = count cs * s.words
  | [] => (Nat.zero_mul _).symm
  | c :: cs => by
    rw [List.flatMap_cons, List.length_append, c.whole, length_flatMap_data cs, count_cons, Nat.add_mul]

/-- The blocks of the whole message are those of the runs one after the other. -/
theorem blocks_flatMap : ∀ cs : List (Run s),
    Words.blocks s.words (count cs) (cs.flatMap data) = cs.flatMap blocks
  | [] => rfl
  | c :: cs => by
    rw [List.flatMap_cons, List.flatMap_cons, count_cons, blocks_append _ _ c.whole, blocks_flatMap cs]
    rfl

end Run

variable (tf : Threefish) (key : ThreefishKey)

/-! ### Encryption -/

/-- The encryption of one chunk: the ciphertext and the chain for the next. -/
def encryptRound (chain : List Word) (c : Run key.stateSize) : List Word × List Word :=
  let data := encryptInPlace tf key chain c.data c.num_blocks
  (data, getChainInBuffer data c.num_blocks key.stateSize)

/-- The chunks in order. -/
def encryptRuns : List Word → List (Run key.stateSize) → List Word
  | _, [] => []
  | chain, c :: cs =>
    let (data, chain) := encryptRound tf key chain c
    data ++ encryptRuns chain cs

variable {tf key}

theorem encryptRound_eq {chain : List Word} (hchain : chain.length = key.stateSize.words) (c : Run key.stateSize) :
    let bs := Cbc.encrypt xorBlock (tf.threefishEncryptBlockWords key) chain c.blocks
    encryptRound tf key chain c = (bs.flatten, Cbc.chain chain bs) ∧
      (Cbc.chain chain bs).length = key.stateSize.words := by
  intro bs
  have hbs : ∀ b ∈ bs, b.length = key.stateSize.words :=
    Cbc.encrypt_mem (S := ofWidth key.stateSize.words) (fun a ha b hb => length_xorBlock ha hb)
      (tf.encrypt_length key) _ _ hchain c.mem_blocks
  have hlen : bs.length = c.num_blocks := (Cbc.length_encrypt ..).trans c.length_blocks
  have hne : bs ≠ [] := fun h => by
    rw [h] at hlen
    exact absurd hlen c.nonempty.ne
  have hdata : encryptInPlace tf key chain c.data c.num_blocks = bs.flatten := by
    rw [encryptInPlace_eq hchain c.nonempty c.whole.ge, ← c.whole, List.drop_length, List.append_nil]
    rfl
  refine ⟨?_, Cbc.chain_mem (S := ofWidth key.stateSize.words) hchain hbs⟩
  rw [encryptRound, hdata, ← hlen, getChainInBuffer_flatten hne hbs]

/-- The chunks in order are the mode on the blocks of all of them. -/
theorem encryptRuns_eq : ∀ (cs : List (Run key.stateSize)) {chain : List Word},
    chain.length = key.stateSize.words → encryptRuns tf key chain cs =
      (Cbc.encrypt xorBlock (tf.threefishEncryptBlockWords key) chain (cs.flatMap Run.blocks)).flatten
  | [], _, _ => rfl
  | c :: cs, chain, hchain => by
    obtain ⟨hround, hlen⟩ := @encryptRound_eq tf key chain hchain c
    simp only [encryptRuns, hround]
    rw [encryptRuns_eq cs hlen, List.flatMap_cons, Cbc.encrypt_append, List.flatten_append]

theorem encryptInPlace_nil (chain : List Word) : encryptInPlace tf key chain [] 0 = [] := by
  have h : ∀ w E, cbcEncrypt w E chain [] 0 = [] := fun w E => by
    simp [cbcEncrypt, xorAt, storeAt, blockAt, xorBlock]
  unfold encryptInPlace
  split <;> exact h _ _

theorem encryptInPlace_flatMap (cs : List (Run key.stateSize)) {chain : List Word}
    (hchain : chain.length = key.stateSize.words) :
    encryptInPlace tf key chain (cs.flatMap Run.data) (Run.count cs) =
      (Cbc.encrypt xorBlock (tf.threefishEncryptBlockWords key) chain (cs.flatMap Run.blocks)).flatten := by
  cases cs with
  | nil => exact encryptInPlace_nil chain
  | cons c cs =>
    have hpos : 0 < Run.count (c :: cs) := by
      rw [Run.count_cons]
      exact Nat.add_pos_left c.nonempty _
    have hlen := Run.length_flatMap_data (c :: cs)
    rw [encryptInPlace_eq hchain hpos hlen.ge, ← hlen, List.drop_length, List.append_nil, Run.blocks_flatMap]

/-! ### Decryption -/

variable (tf key)

/-- The decryption of one chunk; the chain for the next is saved before. -/
def decryptRound (st : DecryptState) (c : Run key.stateSize) : List Word × DecryptState :=
  let even := st.decrypt_count % 2 == 0
  let chain := getChainInBuffer c.data c.num_blocks key.stateSize
  (decryptInPlace tf key (if even then st.chain_even else st.chain_odd) c.data c.num_blocks,
    { st with
      chain_even := if even then st.chain_even else chain
      chain_odd := if even then chain else st.chain_odd
      decrypt_count := add64 st.decrypt_count 1 })

/-- The chunks in order. -/
def decryptRuns : DecryptState → List (Run key.stateSize) → List Word
  | _, [] => []
  | st, c :: cs =>
    let (data, st) := decryptRound tf key st c
    data ++ decryptRuns st cs

variable {tf key}

/-- The chunk is decrypted with the chain that is due, and the one saved is due next. -/
theorem decryptRound_eq {st : DecryptState} (hchain : (nextChain st).length = key.stateSize.words)
    (c : Run key.stateSize) :
    (decryptRound tf key st c).1 = (Cbc.decrypt xorBlock (tf.threefishDecryptBlockWords key)
        (nextChain st) c.blocks).flatten ∧
      nextChain (decryptRound tf key st c).2 = Cbc.chain (nextChain st) c.blocks ∧
      (Cbc.chain (nextChain st) c.blocks).length = key.stateSize.words := by
  have hsaved : getChainInBuffer c.data c.num_blocks key.stateSize =
      Cbc.chain (nextChain st) c.blocks := by
    rw [← c.flatten_blocks, ← c.length_blocks, getChainInBuffer_flatten c.blocks_ne_nil c.mem_blocks]
  have hdata : ∀ chain : List Word, chain.length = key.stateSize.words →
      decryptInPlace tf key chain c.data c.num_blocks =
        (Cbc.decrypt xorBlock (tf.threefishDecryptBlockWords key) chain c.blocks).flatten := by
    intro chain h
    rw [decryptInPlace_eq h c.whole.ge, ← c.whole, List.drop_length, List.append_nil]
    rfl
  have hcount : add64 st.decrypt_count 1 % 2 = (st.decrypt_count + 1) % 2 := by
    unfold add64
    omega
  refine ⟨?_, ?_, Cbc.chain_mem (S := ofWidth key.stateSize.words) hchain c.mem_blocks⟩
  · rw [← hdata _ hchain]
    unfold decryptRound nextChain
    rcases Nat.mod_two_eq_zero_or_one st.decrypt_count with h | h <;> simp [h]
  · rw [← hsaved]
    unfold decryptRound
    simp only [nextChain, hcount]
    rcases Nat.mod_two_eq_zero_or_one st.decrypt_count with h | h
    · rw [if_neg (by omega), h]; rfl
    · rw [if_pos (by omega), h]; rfl

theorem decryptRuns_eq : ∀ (cs : List (Run key.stateSize)) {st : DecryptState},
    (nextChain st).length = key.stateSize.words → decryptRuns tf key st cs =
      (Cbc.decrypt xorBlock (tf.threefishDecryptBlockWords key) (nextChain st)
        (cs.flatMap Run.blocks)).flatten
  | [], _, _ => rfl
  | c :: cs, st, hchain => by
    obtain ⟨hdata, hnext, hlen⟩ := @decryptRound_eq tf key st hchain c
    have hcons : decryptRuns tf key st (c :: cs) =
        (decryptRound tf key st c).1 ++ decryptRuns tf key (decryptRound tf key st c).2 cs := rfl
    rw [hcons, hdata, decryptRuns_eq cs (hnext ▸ hlen), hnext, List.flatMap_cons, Cbc.decrypt_append, List.flatten_append]

theorem decryptInPlace_flatMap (cs : List (Run key.stateSize)) {chain : List Word}
    (hchain : chain.length = key.stateSize.words) :
    decryptInPlace tf key chain (cs.flatMap Run.data) (Run.count cs) =
      (Cbc.decrypt xorBlock (tf.threefishDecryptBlockWords key) chain (cs.flatMap Run.blocks)).flatten := by
  have hlen := Run.length_flatMap_data cs
  rw [decryptInPlace_eq hchain hlen.ge, ← hlen, List.drop_length, List.append_nil, Run.blocks_flatMap]

/-! ### The rounds of the threads -/

/-- A run as a chunk of the queues. -/
def Run.chunk {s : SkeinSize} (a : Action) (c : Run s) : Chunk := ⟨a, c.data, 8 * c.data.length⟩

theorem Run.getNumBlocks_chunk {s : SkeinSize} (c : Run s) (h32 : 8 * c.data.length + s.bytes ≤ 2 ^ 32) :
    getNumBlocks (8 * c.data.length) s = some c.num_blocks := by
  have hsize : 8 * c.data.length = c.num_blocks * s.bytes := by rw [c.whole, s.bytes_eq, Nat.mul_left_comm]
  rw [hsize] at h32 ⊢
  rw [getNumBlocks_eq h32, blockCount_mul]

/-- `encryptQueue` past the header encrypts its chunks by `encryptRound`. -/
theorem encryptQueue_runs {a : Action} (ha : a ≠ .DONE) : ∀ (cs : List (Run key.stateSize)) (chain : List Word),
    (∀ c ∈ cs, 8 * c.data.length + key.stateSize.bytes ≤ 2 ^ 32) →
    ∃ es, EncryptThread.encryptQueue tf key ⟨false, chain⟩ (cs.map (Run.chunk a) ++ [doneChunk]) =
        some (es ++ [doneChunk]) ∧ es.flatMap Chunk.data = encryptRuns tf key chain cs
  | [], chain, _ => ⟨[], by simp [EncryptThread.encryptQueue], rfl⟩
  | c :: cs, chain, h => by
    have hcount := c.getNumBlocks_chunk (h c List.mem_cons_self)
    obtain ⟨es, hq, hes⟩ := encryptQueue_runs ha cs (encryptRound tf key chain c).2
      fun d hd => h d (List.mem_cons_of_mem _ hd)
    have hchunk : EncryptThread.encryptChunk tf key ⟨false, chain⟩ (c.chunk a) =
        some (some ({ c.chunk a with data := (encryptRound tf key chain c).1 },
          ⟨false, (encryptRound tf key chain c).2⟩)) := by
      simp only [EncryptThread.encryptChunk, Run.chunk, hcount]
      rfl
    refine ⟨EncryptThread.genMac { c.chunk a with data := (encryptRound tf key chain c).1 } :: es, ?_, ?_⟩
    · rw [List.map_cons, List.cons_append, EncryptThread.encryptQueue, if_neg (show (c.chunk a).action ≠ _ from ha),
        hchunk]
      simp only [hq, Option.map_some, List.cons_append]
    · rw [List.flatMap_cons, hes, encryptRuns]
      rfl

/-- `decryptQueue` past the header decrypts its chunks by `decryptRound`. -/
theorem decryptQueue_runs {a : Action} (ha : a ≠ .DONE) : ∀ (cs : List (Run key.stateSize)) (st : DecryptState),
    st.header = false → (∀ c ∈ cs, 8 * c.data.length + key.stateSize.bytes ≤ 2 ^ 32) →
    ∃ es, DecryptThread.decryptQueue tf key st (cs.map (Run.chunk a) ++ [doneChunk]) =
        some (es ++ [doneChunk]) ∧ es.flatMap Chunk.data = decryptRuns tf key st cs
  | [], st, _, _ => ⟨[], by simp [DecryptThread.decryptQueue], rfl⟩
  | c :: cs, st, hh, h => by
    have hcount := c.getNumBlocks_chunk (h c List.mem_cons_self)
    obtain ⟨es, hq, hes⟩ := decryptQueue_runs ha cs (decryptRound tf key st c).2 hh
      fun d hd => h d (List.mem_cons_of_mem _ hd)
    have hchunk : DecryptThread.decryptChunk tf key st (c.chunk a) =
        some ({ c.chunk a with data := (decryptRound tf key st c).1 }, (decryptRound tf key st c).2) := by
      simp only [DecryptThread.decryptChunk, Run.chunk, hcount]
      rfl
    refine ⟨{ c.chunk a with data := (decryptRound tf key st c).1 } :: es, ?_, ?_⟩
    · rw [List.map_cons, List.cons_append, DecryptThread.decryptQueue, if_neg (show (c.chunk a).action ≠ _ from ha),
        if_neg (by simp [hh]), hchunk]
      simp only [Option.bind_some, hq, Option.map_some, List.cons_append]
    · rw [List.flatMap_cons, hes, decryptRuns]

/-! ### Any cut -/

/-- However a message is cut into non-empty runs of whole blocks, the chunks
encrypted in order are one encryption of the message and the chunks decrypted
in order are one decryption of it. -/
theorem split_eq_whole (tf : Threefish) (key : ThreefishKey) (chain chain_odd : List Word)
    (hchain : chain.length = key.stateSize.words) (cs : List (Run key.stateSize)) :
    encryptRuns tf key chain cs = encryptInPlace tf key chain (cs.flatMap Run.data) (Run.count cs) ∧
      decryptRuns tf key ⟨false, chain, chain_odd, 0⟩ cs =
        decryptInPlace tf key chain (cs.flatMap Run.data) (Run.count cs) := by
  constructor
  · rw [encryptRuns_eq cs hchain, encryptInPlace_flatMap cs hchain]
  · have hnext : nextChain ⟨false, chain, chain_odd, 0⟩ = chain := rfl
    rw [decryptRuns_eq cs (hnext.symm ▸ hchain), hnext, decryptInPlace_flatMap cs hchain]

/-- A message of three blocks, cut after the first. -/
theorem split_eq_whole_sample :
    encryptRuns Skein3fish.threefish ⟨.Skein256, [1, 2, 3, 4], []⟩ [9, 9, 9, 9]
        [⟨[5, 6, 7, 8], 1, by decide, by decide⟩, ⟨[1, 2, 3, 4, 5, 6, 7, 8], 2, by decide, by decide⟩] =
      encryptInPlace Skein3fish.threefish ⟨.Skein256, [1, 2, 3, 4], []⟩ [9, 9, 9, 9]
        [5, 6, 7, 8, 1, 2, 3, 4, 5, 6, 7, 8] 3 :=
  (split_eq_whole Skein3fish.threefish ⟨.Skein256, [1, 2, 3, 4], []⟩ [9, 9, 9, 9] [] rfl _).1

end Threefizer
