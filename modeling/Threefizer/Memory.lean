/-
# How much memory the chunks take

"10*50MB*3Queues = 1.5GB max queue usage", says `commonConstants.h`. No chunk
is larger than the largest piece that is read, or than the two blocks of the
header: the threads change what a chunk is for and the bytes of its data, never
its size. So in every state of every run the queues hold no more than that, and
the threads have at most five chunks in hand (`memory_bound`).

`holdsFit` says of each thread that it holds only such chunks if it is given only
such chunks.
-/
import Mathlib.Algebra.Order.BigOperators.Group.List
import Threefizer.RoomKept
import Threefizer.ChunkSize

namespace Threefizer

open Words Queue

/-! ### The chunks a thread holds -/

/-- The buffer of a chunk has at most `M` bytes. -/
def Chunk.Fits (M : ℕ) (c : Chunk) : Prop := c.data_size ≤ M

/-- If a chunk is held, it fits. -/
def HoldsFit (M : ℕ) (o : Option Chunk) : Prop := ∀ c, o = some c → c.Fits M

/-- All chunks in the queue fit. -/
def Queue.Fits (M : ℕ) (q : Queue) : Prop := ∀ c ∈ q.elements, c.Fits M

/-- The bytes of a chunk that may be there. -/
def heldBytes (o : Option Chunk) : ℕ := (o.map Chunk.data_size).getD 0

/-- The bytes of the buffers of all chunks in the queue. -/
def Queue.bytesHeld (q : Queue) : ℕ := (q.elements.map Chunk.data_size).sum

section Held

variable {M : ℕ}

theorem doneChunk_fits : doneChunk.Fits M := Nat.zero_le _

theorem holds_none : HoldsFit M none := fun _ h => by cases h

theorem holds_some {c : Chunk} (h : c.Fits M) : HoldsFit M (some c) := fun _ hc => by cases hc; exact h

theorem HoldsFit.le {o : Option Chunk} (h : HoldsFit M o) : heldBytes o ≤ M := by
  cases o with
  | none => exact Nat.zero_le _
  | some c => exact h c rfl

/-- A queue is full of chunks that fit at most. -/
theorem Queue.Fits.le {q : Queue} (h : q.Fits M) : q.bytesHeld ≤ q.capacity * M := by
  have hsum : q.bytesHeld ≤ (q.elements.map Chunk.data_size).length * M :=
    List.sum_le_card_nsmul _ M fun n hn => by
      obtain ⟨c, hc, rfl⟩ := List.mem_map.mp hn
      exact h c hc
  rw [List.length_map] at hsum
  exact hsum.trans (Nat.mul_le_mul_right _ q.bound)

theorem Queue.Fits.front {q : Queue} {c : Chunk} (h : q.Fits M) (hf : q.front = some c) : c.Fits M :=
  h c (by rw [front_eq_some hf]; exact List.mem_cons_self)

theorem Queue.Fits.of_takes {q q' : Queue} (htakes : q' = q ∨ q' = q.deque) (h : q.Fits M) : q'.Fits M :=
  fun c hc => h c (mem_of_takes htakes hc)

theorem Queue.Fits.enque {q q' : Queue} {c : Chunk} (h : q.Fits M) (hc : c.Fits M) (hq : q.enque c = some q') :
    q'.Fits M := by
  intro d hd
  rw [(enque_eq_some hq).1] at hd
  rcases List.mem_append.mp hd with hd | hd
  · exact h d hd
  · rw [List.mem_singleton.mp hd]
    exact hc

/-- What a producer puts in where there is room. -/
theorem Queue.Fits.produces {q q' : Queue} {put put' : Option Chunk} (h : q.Fits M)
    (hP : Produces put put' q q') (hput : HoldsFit M put) (hroom : put ≠ none → q.HasRoom) : q'.Fits M := by
  by_cases hn : put = none
  · rw [hP.idle hn]
    exact h
  · obtain ⟨c, hc⟩ := Option.ne_none_iff_exists'.mp hn
    exact h.enque (hput c hc) (hP.puts c hc (hroom hn))

namespace Reader

variable {R : Reader} {l l' : Local} {fl fl' : Flags} {out out' : Queue}

theorem Moves.holdsFit (h : R.Moves l fl out l' fl' out') (hnext : ∀ st c st', R.next st = some (c, st') → c.Fits M)
    (hl : HoldsFit M l.data_chunk) : HoldsFit M l'.data_chunk := by
  cases h with
  | read _ _ _ _ hn => exact holds_some (hnext _ _ _ hn)
  | queued => exact holds_none
  | _ => exact hl

theorem put_held (hl : HoldsFit M l.data_chunk) : HoldsFit M (put l) := by
  unfold put
  split
  · exact hl
  · exact holds_some doneChunk_fits
  · exact holds_none

end Reader

namespace EncryptThread

variable {tf : Threefish} {tf_key : ThreefishKey} {l l' : Local} {fl fl' : Flags} {inq inq' out out' : Queue}

/-- Encryption is in place. -/
theorem encryptChunk_size {st st' : EncryptState} {c e : Chunk}
    (h : encryptChunk tf tf_key st c = some (some (e, st'))) : e.data_size = c.data_size := by
  unfold encryptChunk at h
  split at h
  · cases hh : encryptHeader tf tf_key c.data <;> rw [hh] at h <;> cases h
    rfl
  · obtain ⟨n, -, hx⟩ := Option.map_eq_some_iff.mp h
    cases hx
    rfl

theorem Worked.holdsFit {c : Chunk} (h : Worked tf tf_key l c l') (hc : c.Fits M) : HoldsFit M l'.encrypt_chunk := by
  cases h with
  | encrypted _ _ he => exact holds_some ((encryptChunk_size he).trans_le hc)
  | again => exact holds_some hc
  | _ => exact holds_none

theorem Moves.holdsFit (h : Moves tf tf_key l fl inq out l' fl' inq' out') (hin : inq.Fits M)
    (hl : HoldsFit M l.encrypt_chunk) : HoldsFit M l'.encrypt_chunk := by
  cases h with
  | kept _ _ hc hw => exact hw.holdsFit (hl _ hc)
  | taken _ _ hf hw => exact hw.holdsFit (hin.front hf)
  | room =>
    intro c hc
    obtain ⟨d, hd, rfl⟩ := Option.map_eq_some_iff.mp hc
    exact hl d hd
  | queued => exact holds_none
  | _ => exact hl

theorem put_held (hl : HoldsFit M l.encrypt_chunk) : HoldsFit M (put l) := by
  unfold put
  split
  · exact hl
  · exact holds_some doneChunk_fits
  · exact holds_none

end EncryptThread

namespace GenerateThread

variable {sk : Skein} {mc : MacCtx sk} {l l' : Local sk} {fl fl' : Flags} {inq inq' out out' : Queue}

theorem work_held {c : Chunk} (hc : c.Fits M) : HoldsFit M (work mc l c).update_chunk := by
  unfold work
  split
  · exact holds_some hc
  · exact holds_some hc

theorem enter_held (hl : HoldsFit M l.update_chunk) : HoldsFit M (enter mc l).update_chunk := by
  unfold enter
  split
  next => exact hl
  next c hc => exact work_held (hl c hc)

theorem work_mac_chunk (l : Local sk) (c : Chunk) : (work mc l c).mac_chunk = l.mac_chunk := by
  unfold work
  split <;> rfl

theorem enter_mac_chunk (l : Local sk) : (enter mc l).mac_chunk = l.mac_chunk := by
  unfold enter
  split
  · rfl
  · exact work_mac_chunk _ _

theorem Moves.holdsFit (h : Moves mc l fl inq out l' fl' inq' out') (htag : mc.digest_byte_size ≤ M) (hin : inq.Fits M)
    (hl : HoldsFit M l.update_chunk ∧ HoldsFit M l.mac_chunk) : HoldsFit M l'.update_chunk ∧ HoldsFit M l'.mac_chunk := by
  cases h with
  | empty => exact ⟨enter_held hl.1, by rw [enter_mac_chunk]; exact hl.2⟩
  | notDone => exact ⟨enter_held hl.1, by rw [enter_mac_chunk]; exact hl.2⟩
  | taken _ _ hf => exact ⟨work_held (hin.front hf), by rw [work_mac_chunk]; exact hl.2⟩
  | queued => exact ⟨holds_none, hl.2⟩
  | final => exact ⟨hl.1, holds_some htag⟩
  | _ => exact hl

theorem put_held (hl : HoldsFit M l.update_chunk ∧ HoldsFit M l.mac_chunk) : HoldsFit M (put l) := by
  unfold put
  split
  · exact hl.1
  · exact hl.2
  · exact holds_some doneChunk_fits
  · exact holds_none

end GenerateThread

namespace AuthThread

variable {tf : Threefish} {tf_key : ThreefishKey} {sk : Skein} {mc : MacCtx sk} {l l' : Local sk}
  {fl fl' : Flags} {inq inq' out out' : Queue}

theorem mac_held {c : Chunk} (hc : c.Fits M) : HoldsFit M (mac mc l c).mac_chunk := by
  unfold mac
  split
  · exact holds_some hc
  · exact holds_some hc

theorem work_held {c : Chunk} (hc : c.Fits M) : HoldsFit M (work mc l c).mac_chunk := by
  unfold work
  split
  · exact holds_some hc
  · split
    · exact holds_some hc
    · exact mac_held hc

theorem mac_stored (l : Local sk) (c : Chunk) : (mac mc l c).stored_mac_chunk = l.stored_mac_chunk := by
  unfold mac
  split <;> rfl

theorem Moves.holdsFit (h : Moves tf tf_key mc l fl inq out l' fl' inq' out') (hin : inq.Fits M)
    (hl : HoldsFit M l.mac_chunk ∧ HoldsFit M l.stored_mac_chunk) :
    HoldsFit M l'.mac_chunk ∧ HoldsFit M l'.stored_mac_chunk := by
  cases h with
  | kept _ _ hc => exact ⟨work_held (hl.1 _ hc), by rw [work_stored]; exact hl.2⟩
  | taken _ _ hf => exact ⟨work_held (hin.front hf), by rw [work_stored]; exact hl.2⟩
  | seen _ _ hf => exact ⟨work_held (hin.front hf), by rw [work_stored]; exact hl.2⟩
  | setValid _ hc => exact ⟨mac_held (hl.1 _ hc), by rw [mac_stored]; exact hl.2⟩
  | queued => exact ⟨holds_none, hl.2⟩
  | compared _ _ hf => exact ⟨hl.1, holds_some (hin.front hf)⟩
  | _ => exact hl

theorem put_held (hl : HoldsFit M l.mac_chunk ∧ HoldsFit M l.stored_mac_chunk) : HoldsFit M (put l) := by
  unfold put
  split
  · exact hl.1
  · exact holds_some doneChunk_fits
  · exact holds_none

end AuthThread

namespace DecryptThread

variable {tf : Threefish} {tf_key : ThreefishKey} {l l' : Local} {fl fl' : Flags} {inq inq' out out' : Queue}

/-- Decryption is in place. -/
theorem decryptChunk_size {st st' : DecryptState} {c e : Chunk} (h : decryptChunk tf tf_key st c = some (e, st')) :
    e.data_size = c.data_size := by
  obtain ⟨n, -, hx⟩ := Option.map_eq_some_iff.mp h
  cases hx
  rfl

theorem Worked.holdsFit {c : Chunk} (h : Worked tf tf_key l c l') (hc : c.Fits M) : HoldsFit M l'.decrypt_chunk := by
  cases h with
  | decrypted _ _ _ he => exact holds_some ((decryptChunk_size he).trans_le hc)
  | again => exact holds_some hc
  | _ => exact holds_none

theorem Moves.holdsFit (h : Moves tf tf_key l fl inq out l' fl' inq' out') (hin : inq.Fits M)
    (hl : HoldsFit M l.decrypt_chunk) : HoldsFit M l'.decrypt_chunk := by
  cases h with
  | kept _ _ hc hw => exact hw.holdsFit (hl _ hc)
  | taken _ _ hf hw => exact hw.holdsFit (hin.front hf)
  | queued => exact holds_none
  | _ => exact hl

theorem put_held (hl : HoldsFit M l.decrypt_chunk) : HoldsFit M (put l out) := by
  unfold put
  split
  · split
    · exact holds_none
    · exact hl
  · exact holds_some doneChunk_fits
  · exact holds_none

end DecryptThread

namespace WriteThread

variable {P : WriteParams} {l l' : Local} {fl fl' : Flags} {inq inq' : Queue} {fs fs' : FileSystem}

theorem Moves.holdsFit (h : Moves P l fl inq fs l' fl' inq' fs') (hin : inq.Fits M) (hl : HoldsFit M l.write_chunk) :
    HoldsFit M l'.write_chunk := by
  intro c hc
  rcases h.takes_chunk hc with h | h
  · exact hl c h
  · exact hin c h

end WriteThread

end Held

/-! ### The chunks that are made -/

theorem getPadSize_eq_some {n m : ℕ} {s : SkeinSize} (h : getPadSize n s = some m) : m = blockCount n s * s.bytes := by
  by_cases h32 : n + s.bytes ≤ 2 ^ 32
  · rw [getPadSize_eq h32] at h
    exact (Option.some.inj h).symm
  · rw [getPadSize, getNumBlocks_none (by omega)] at h
    cases h

/-- Padding does not lead past a limit of whole blocks. -/
theorem readChunk_fits {file : List Byte} {s : SkeinSize} {a : Action} {n k M : ℕ} {c : Chunk} (hM : s.bytes ∣ M)
    (hk : k ≤ M) (h : readChunk file s a n k = some c) : c.Fits M := by
  obtain ⟨input, -, h⟩ := Option.bind_eq_some_iff.mp h
  obtain ⟨data, -, h⟩ := Option.bind_eq_some_iff.mp h
  obtain ⟨m, hm, rfl⟩ := Option.map_eq_some_iff.mp h
  show m ≤ M
  rw [getPadSize_eq_some hm]
  obtain ⟨j, rfl⟩ := hM
  have hlt := blockCount_mul_lt k s
  have hblocks : blockCount k s ≤ j := by
    by_contra hj
    have hmul : (j + 1) * s.bytes ≤ blockCount k s * s.bytes := Nat.mul_le_mul_right _ (by omega)
    rw [Nat.succ_mul, Nat.mul_comm j] at hmul
    omega
  rw [Nat.mul_comm s.bytes j]
  exact Nat.mul_le_mul_right _ hblocks

/-- The most a chunk has: a piece of the file, or the header. -/
def Job.chunk_limit (J : Job) : ℕ := max J.max_chunk (2 * J.state_size.bytes)

theorem Job.dvd_chunk_limit (J : Job) : J.state_size.bytes ∣ J.chunk_limit := by
  unfold Job.chunk_limit
  rcases max_choice J.max_chunk (2 * J.state_size.bytes) with h | h <;> rw [h]
  · exact J.max_chunk_dvd
  · exact Dvd.intro_left 2 rfl

theorem Job.digest_le_chunk_limit (J : Job) : J.mac_context.digest_byte_size ≤ J.chunk_limit := by
  show J.state_size.bytes ≤ _
  have := le_max_right J.max_chunk (2 * J.state_size.bytes)
  unfold Job.chunk_limit
  omega

theorem encryptReader_fits {J : Job} {st st' : ReadState} {c : Chunk}
    (h : (EncryptRun.reader J).next st = some (c, st')) : c.Fits J.chunk_limit := by
  obtain ⟨d, hd, hx⟩ := Option.map_eq_some_iff.mp h
  cases hx
  refine readChunk_fits J.dvd_chunk_limit ((?_ : _ ≤ J.max_chunk).trans (le_max_left _ _)) hd
  split
  · exact le_rfl
  · omega

theorem decryptReader_fits {J : Job} {st st' : ReadState} {c : Chunk}
    (h : (DecryptRun.reader J).next st = some (c, st')) : c.Fits J.chunk_limit := by
  have hmax := le_max_left J.max_chunk (2 * J.state_size.bytes)
  have htwo := le_max_right J.max_chunk (2 * J.state_size.bytes)
  simp only [DecryptRun.reader, decryptReader] at h
  obtain ⟨d, hd, hx⟩ := Option.map_eq_some_iff.mp h
  cases hx
  refine readChunk_fits J.dvd_chunk_limit ?_ hd
  unfold Job.chunk_limit
  by_cases hheader : st.header = true
  · rw [if_pos hheader]
    exact htwo
  · rw [if_neg hheader]
    split
    · exact hmax
    · split
      next hlt => exact hlt.1.le.trans hmax
      next =>
        show J.state_size.bytes ≤ _
        omega

theorem headerChunk_fits (J : Job) : (headerChunk J.args).Fits J.chunk_limit := by
  show 2 * J.args.state_size.bytes ≤ _
  rw [J.state_size_eq]
  exact le_max_right _ _

/-- The queue after `queueHeader` holds the header. -/
theorem queueHeader_fits {J : Job} {n : ℕ} {q : Queue} (h : queueHeader J.args (createQueue n) = some (true, q)) :
    q.Fits J.chunk_limit ∧ q.capacity = n := by
  unfold queueHeader at h
  split at h
  · cases h
  · split at h
    · cases h
    · obtain ⟨q', hq, hx⟩ := Option.map_eq_some_iff.mp h
      cases hx
      have hnew : (createQueue n).Fits J.chunk_limit := fun c hc => absurd hc List.not_mem_nil
      exact ⟨hnew.enque (headerChunk_fits J) hq, (enque_eq_some hq).2.1⟩

theorem createQueue_fits (M n : ℕ) : (createQueue n).Fits M ∧ (createQueue n).capacity = n :=
  ⟨fun _ hc => absurd hc List.not_mem_nil, rfl⟩

/-! ### The pipelines -/

/-- A step of its producer or of another thread does not take a queue over its limits. -/
theorem Queue.Fits.step {M : ℕ} {q q' : Queue} {put put' : Option Chunk} {produces consumes : Prop} (h : q.Fits M)
    (hP : produces → Produces put put' q q') (hL : ¬ produces → Leaves consumes put put' q q')
    (hput : HoldsFit M put) (hroom : put ≠ none → q.HasRoom) : q'.Fits M ∧ q'.capacity = q.capacity := by
  by_cases hp : produces
  · exact ⟨h.produces (hP hp) hput hroom, (hP hp).capacity⟩
  · have htakes : q' = q ∨ q' = q.deque := (hL hp).takes.imp id And.right
    refine ⟨h.of_takes htakes, ?_⟩
    rcases htakes with h | h <;> rw [h]
    rfl

namespace EncryptRun

variable {J : Job} {s s' : State J} {t : Thread}

/-- The bytes of the chunks in the three queues. -/
def State.queued (s : State J) : ℕ := s.crypto_queue.bytesHeld + s.mac_queue.bytesHeld + s.write_queue.bytesHeld

/-- The bytes of the chunks that the threads have in hand. -/
def State.inHand (s : State J) : ℕ :=
  heldBytes s.read.data_chunk + heldBytes s.crypt.encrypt_chunk + heldBytes s.mac.update_chunk +
    heldBytes s.mac.mac_chunk + heldBytes s.write.write_chunk

/-- No chunk is over the limit, and no queue has got longer. -/
structure Bounded (s : State J) : Prop where
  queues : ∀ w, (s.queue w).Fits J.chunk_limit ∧ (s.queue w).capacity = J.que_size
  read : HoldsFit J.chunk_limit s.read.data_chunk
  crypt : HoldsFit J.chunk_limit s.crypt.encrypt_chunk
  mac : HoldsFit J.chunk_limit s.mac.update_chunk ∧ HoldsFit J.chunk_limit s.mac.mac_chunk
  write : HoldsFit J.chunk_limit s.write.write_chunk

theorem Bounded.put (h : Bounded s) (w : Wire) : HoldsFit J.chunk_limit (s.put w) := by
  cases w with
  | crypto => exact Reader.put_held h.read
  | mac => exact EncryptThread.put_held h.crypt
  | write => exact GenerateThread.put_held h.mac

theorem Bounded.step (hm : Moves s t s') (hroom : ∀ w, s.put w ≠ none → (s.queue w).HasRoom) (h : Bounded s) :
    Bounded s' := by
  have hqueues : ∀ w, (s'.queue w).Fits J.chunk_limit ∧ (s'.queue w).capacity = J.que_size := by
    intro w
    have hw := (h.queues w).1.step hm.produces hm.leaves (h.put w) (hroom w)
    exact ⟨hw.1, hw.2.trans (h.queues w).2⟩
  cases hm with
  | read hm => exact { h with queues := hqueues, read := hm.holdsFit (fun _ _ _ => encryptReader_fits) h.read }
  | crypt hm => exact { h with queues := hqueues, crypt := hm.holdsFit (h.queues .crypto).1 h.crypt }
  | mac hm =>
    exact { h with queues := hqueues, mac := hm.holdsFit J.digest_le_chunk_limit (h.queues .mac).1 h.mac }
  | write hm => exact { h with queues := hqueues, write := hm.holdsFit (h.queues .write).1 h.write }

theorem start_bounded {fs : FileSystem} {s₀ : State J} (h : start J fs = some s₀) : Bounded s₀ := by
  unfold start at h
  split at h
  next q hheader =>
    cases h
    refine ⟨fun w => ?_, holds_none, holds_none, ⟨holds_none, holds_none⟩, holds_none⟩
    cases w with
    | crypto => exact queueHeader_fits hheader
    | mac => exact createQueue_fits _ _
    | write => exact createQueue_fits _ _
  next => cases h

theorem reachable_bounded {fs : FileSystem} {s₀ : State J} (h0 : start J fs = some s₀)
    (h : Lts.Reachable step s₀ s) : Bounded s :=
  Lts.Reach.invariant' (J := fun s => ∀ w, s.put w ≠ none → (s.queue w).HasRoom)
    (fun _ hs _ hput => room_of_put h0 hs hput) (start_bounded h0)
    (fun _ _ _ hroom hI _ hstep => hI.step (moves_of_step hstep) hroom) h

theorem Bounded.le (h : Bounded s) :
    s.queued ≤ 3 * (J.que_size * J.chunk_limit) ∧ s.inHand ≤ 5 * J.chunk_limit := by
  have hq : ∀ w, (s.queue w).bytesHeld ≤ J.que_size * J.chunk_limit := fun w => by
    have hw := (h.queues w).1.le
    rwa [(h.queues w).2] at hw
  have hcrypto : s.crypto_queue.bytesHeld ≤ _ := hq .crypto
  have hmac : s.mac_queue.bytesHeld ≤ _ := hq .mac
  have hwrite : s.write_queue.bytesHeld ≤ _ := hq .write
  have h1 := h.read.le
  have h2 := h.crypt.le
  have h3 := h.mac.1.le
  have h4 := h.mac.2.le
  have h5 := h.write.le
  unfold State.queued State.inHand
  omega

end EncryptRun

namespace DecryptRun

variable {J : Job} {s s' : State J} {t : Thread}

/-- The bytes of the chunks in the three queues. -/
def State.queued (s : State J) : ℕ := s.mac_queue.bytesHeld + s.crypto_queue.bytesHeld + s.write_queue.bytesHeld

/-- The bytes of the chunks that the threads have in hand. -/
def State.inHand (s : State J) : ℕ :=
  heldBytes s.read.data_chunk + heldBytes s.mac.mac_chunk + heldBytes s.mac.stored_mac_chunk +
    heldBytes s.crypt.decrypt_chunk + heldBytes s.write.write_chunk

/-- No chunk is over the limit, and no queue has got longer. -/
structure Bounded (s : State J) : Prop where
  queues : ∀ w, (s.queue w).Fits J.chunk_limit ∧ (s.queue w).capacity = J.que_size
  read : HoldsFit J.chunk_limit s.read.data_chunk
  mac : HoldsFit J.chunk_limit s.mac.mac_chunk ∧ HoldsFit J.chunk_limit s.mac.stored_mac_chunk
  crypt : HoldsFit J.chunk_limit s.crypt.decrypt_chunk
  write : HoldsFit J.chunk_limit s.write.write_chunk

theorem Bounded.put (h : Bounded s) (w : Wire) : HoldsFit J.chunk_limit (s.put w) := by
  cases w with
  | mac => exact Reader.put_held h.read
  | crypto => exact AuthThread.put_held h.mac
  | write => exact DecryptThread.put_held h.crypt

theorem Bounded.step (hm : Moves s t s') (hroom : ∀ w, s.put w ≠ none → (s.queue w).HasRoom) (h : Bounded s) :
    Bounded s' := by
  have hqueues : ∀ w, (s'.queue w).Fits J.chunk_limit ∧ (s'.queue w).capacity = J.que_size := by
    intro w
    have hw := (h.queues w).1.step hm.produces hm.leaves (h.put w) (hroom w)
    exact ⟨hw.1, hw.2.trans (h.queues w).2⟩
  cases hm with
  | read hm => exact { h with queues := hqueues, read := hm.holdsFit (fun _ _ _ => decryptReader_fits) h.read }
  | mac hm => exact { h with queues := hqueues, mac := hm.holdsFit (h.queues .mac).1 h.mac }
  | crypt hm => exact { h with queues := hqueues, crypt := hm.holdsFit (h.queues .crypto).1 h.crypt }
  | write hm => exact { h with queues := hqueues, write := hm.holdsFit (h.queues .write).1 h.write }

theorem start_bounded (fs : FileSystem) : Bounded (start J fs) where
  queues := fun w => by cases w <;> exact createQueue_fits _ _
  read := holds_none
  mac := ⟨holds_none, holds_none⟩
  crypt := holds_none
  write := holds_none

theorem reachable_bounded {fs : FileSystem} (h : Lts.Reachable step (start J fs) s) : Bounded s :=
  Lts.Reach.invariant' (J := fun s => ∀ w, s.put w ≠ none → (s.queue w).HasRoom)
    (fun _ hs _ hput => room_of_put hs hput) (start_bounded fs)
    (fun _ _ _ hroom hI _ hstep => hI.step (moves_of_step hstep) hroom) h

theorem Bounded.le (h : Bounded s) :
    s.queued ≤ 3 * (J.que_size * J.chunk_limit) ∧ s.inHand ≤ 5 * J.chunk_limit := by
  have hq : ∀ w, (s.queue w).bytesHeld ≤ J.que_size * J.chunk_limit := fun w => by
    have hw := (h.queues w).1.le
    rwa [(h.queues w).2] at hw
  have hmac : s.mac_queue.bytesHeld ≤ _ := hq .mac
  have hcrypto : s.crypto_queue.bytesHeld ≤ _ := hq .crypto
  have hwrite : s.write_queue.bytesHeld ≤ _ := hq .write
  have h1 := h.read.le
  have h2 := h.mac.1.le
  have h3 := h.mac.2.le
  have h4 := h.crypt.le
  have h5 := h.write.le
  unfold State.queued State.inHand
  omega

end DecryptRun

/-- What the shipped sizes come to: the "1.5GB max queue usage" of
`commonConstants.h`, and a quarter of a gigabyte in hand. -/
theorem shipped_limits {J : Job} (hq : J.que_size = QUE_SIZE) (hm : J.max_chunk = MAX_CHUNK_SIZE) :
    3 * (J.que_size * J.chunk_limit) = 1536000000 ∧ 5 * J.chunk_limit = 256000000 := by
  have hlimit : J.chunk_limit = 51200000 := by
    unfold Job.chunk_limit
    rw [hm]
    rcases J.state_size.bytes_cases with h | h | h <;> rw [h] <;> rfl
  rw [hq, hlimit]
  exact ⟨rfl, rfl⟩

/-- **The memory is bounded.** In every state of every run of either pipeline
the three queues hold at most three times the capacity of one, in chunks of at
most the limit, and the threads have at most five chunks in hand. -/
theorem memory_bound (J : Job) (fs : FileSystem) :
    (∀ s₀ s, EncryptRun.start J fs = some s₀ → Lts.Reachable EncryptRun.step s₀ s →
      s.queued ≤ 3 * (J.que_size * J.chunk_limit) ∧ s.inHand ≤ 5 * J.chunk_limit) ∧
    (∀ s, Lts.Reachable DecryptRun.step (DecryptRun.start J fs) s →
      s.queued ≤ 3 * (J.que_size * J.chunk_limit) ∧ s.inHand ≤ 5 * J.chunk_limit) ∧
    (J.que_size = QUE_SIZE → J.max_chunk = MAX_CHUNK_SIZE →
      3 * (J.que_size * J.chunk_limit) = 1536000000 ∧ 5 * J.chunk_limit = 256000000) :=
  ⟨fun _ _ h0 h => (EncryptRun.reachable_bounded h0 h).le, fun _ h => (DecryptRun.reachable_bounded h).le,
    shipped_limits⟩

/-- An encryption with the shipped sizes that has just started, and a
decryption with the header in the first queue and data in the hand of the
reader. -/
theorem memory_bound_sample :
    (∃ s₀ : EncryptRun.State (Skein3fish.sampleJob true Skein3fish.sampleFile),
      EncryptRun.start _ (fun _ => none) = some s₀ ∧ s₀.queued ≤ 1536000000) ∧
    ∃ s : DecryptRun.State (Skein3fish.sampleJob false Skein3fish.sampleFile),
      Lts.Reachable DecryptRun.step (DecryptRun.start _ fun _ => none) s ∧
      (s.queued = 64 ∧ s.inHand = 32) ∧ s.queued ≤ 1536000000 ∧ s.inHand ≤ 256000000 := by
  constructor
  · have hstart : (EncryptRun.start (Skein3fish.sampleJob true Skein3fish.sampleFile)
        fun _ => none).isSome = true := by
      decide +kernel
    obtain ⟨s₀, h0⟩ := Option.isSome_iff_exists.mp hstart
    have hbound := memory_bound (Skein3fish.sampleJob true Skein3fish.sampleFile) fun _ => none
    rw [(hbound.2.2 rfl rfl).1] at hbound
    exact ⟨s₀, h0, (hbound.1 s₀ s₀ h0 .refl).1⟩
  · have hrun : (Lts.run DecryptRun.step (fun _ _ => True)
        (DecryptRun.start (Skein3fish.sampleJob false Skein3fish.sampleFile) fun _ => none)
        (DecryptRun.steps .read 7)).any (fun s => decide (s.queued = 64 ∧ s.inHand = 32)) = true := by
      decide +kernel
    obtain ⟨s, hs, hlook⟩ := Lts.Reach.of_run_any hrun
    have hbound := memory_bound (Skein3fish.sampleJob false Skein3fish.sampleFile) fun _ => none
    obtain ⟨hq, hh⟩ := hbound.2.2 rfl rfl
    rw [hq, hh] at hbound
    exact ⟨s, hs, of_decide_eq_true hlook, hbound.2.1 s hs⟩

end Threefizer
