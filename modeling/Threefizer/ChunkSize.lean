/-
# The chunk size

`MAX_CHUNK_SIZE` may be changed, and `commonConstants.h` asks of it that it is
a multiple of 64. A chunk is padded to whole blocks, so every chunk but the
last has to be whole blocks already, and the blocks of Skein1024 are 128 bytes.
Also one `read` has to deliver it.

`Exact` is what the readers rely on, `encryptExact_iff` and `decryptExact_iff`
say when they have it.
-/
import Threefizer.ReadPlan

namespace Threefizer

open Words

/-! ### Pieces of whole blocks -/

theorem blockCount_mul_eq_iff {n : ℕ} {s : SkeinSize} : blockCount n s * s.bytes = n ↔ s.bytes ∣ n :=
  ⟨fun h => ⟨blockCount n s, by rw [Nat.mul_comm, h]⟩, blockCount_of_dvd⟩

/-- All pieces but the last have the full size. -/
theorem length_of_mem_dropLast_pieces {m : ℕ} (hm : 0 < m) {l p : List Byte} (hp : p ∈ (pieces m l).dropLast) :
    p.length = m := by
  induction hn : l.length using Nat.strong_induction_on generalizing l with
  | _ n ih =>
    rcases Nat.eq_zero_or_pos l.length with h0 | hpos
    · rw [List.length_eq_zero_iff.mp h0, pieces_nil hm] at hp
      cases hp
    · rw [pieces_of_ne_nil hm hpos] at hp
      by_cases hle : l.length ≤ m
      · rw [List.drop_eq_nil_of_le hle, pieces_nil hm] at hp
        cases hp
      · have hne : pieces m (l.drop m) ≠ [] := by
          rw [pieces_of_ne_nil hm (by rw [List.length_drop]; omega)]
          exact List.cons_ne_nil _ _
        rw [List.dropLast_cons_of_ne_nil hne] at hp
        rcases List.mem_cons.mp hp with rfl | hp
        · rw [List.length_take]; omega
        · exact ih (l.drop m).length (by rw [List.length_drop]; omega) hp rfl

/-- With more than one piece the first is not the last. -/
theorem take_mem_dropLast_pieces {m : ℕ} (hm : 0 < m) {l : List Byte} (hl : m < l.length) :
    l.take m ∈ (pieces m l).dropLast := by
  have hne : pieces m (l.drop m) ≠ [] := by
    rw [pieces_of_ne_nil hm (by rw [List.length_drop]; omega)]
    exact List.cons_ne_nil _ _
  rw [pieces_of_ne_nil hm (by omega), List.dropLast_cons_of_ne_nil hne]
  exact List.mem_cons_self

/-- All pieces but the last are whole blocks. -/
theorem dvd_pieces_iff {m : ℕ} (hm : 0 < m) (l : List Byte) (s : SkeinSize) :
    (∀ p ∈ (pieces m l).dropLast, s.bytes ∣ p.length) ↔ s.bytes ∣ m ∨ l.length ≤ m := by
  constructor
  · intro h
    by_contra hne
    obtain ⟨hdvd, hlen⟩ := not_or.mp hne
    have := h _ (take_mem_dropLast_pieces hm (by omega))
    rw [List.length_take, Nat.min_eq_left (by omega)] at this
    exact hdvd this
  · rintro (h | h) p hp
    · rwa [length_of_mem_dropLast_pieces hm hp]
    · rcases Nat.eq_zero_or_pos l.length with h0 | hpos
      · rw [List.length_eq_zero_iff.mp h0, pieces_nil hm] at hp
        cases hp
      · rw [pieces_of_ne_nil hm hpos, List.drop_eq_nil_of_le h, pieces_nil hm] at hp
        cases hp

/-! ### The readers -/

/-- `pad` has added nothing: the chunk is as long as the bytes of the file it carries. -/
def Exact (p : Chunk × ℕ) : Prop := p.1.data_size = p.2

theorem exact_carried {a : Action} {s : SkeinSize} {p : List Byte} : Exact (carried a s p) ↔ s.bytes ∣ p.length :=
  blockCount_mul_eq_iff

/-- The pieces but the last are put out without padding. -/
theorem exact_pieces_iff {m : ℕ} (hm : 0 < m) (l : List Byte) (s : SkeinSize) (a : Action) :
    (∀ p ∈ ((pieces m l).map (carried a s)).dropLast, Exact p) ↔ s.bytes ∣ m ∨ l.length ≤ m := by
  rw [← List.map_dropLast, List.forall_mem_map, ← dvd_pieces_iff hm l s]
  exact forall₂_congr fun p _ => exact_carried

/-- `queueFileForEncrypt` puts out all its chunks, each but the last without padding. -/
def EncryptExact (file : List Byte) (s : SkeinSize) (m : ℕ) : Prop :=
  ∃ cs, (encryptReader file s m).Carries .init cs ∧ ∀ p ∈ cs.dropLast, Exact p

/-- `queueFileForDecrypt` puts out all its chunks, each but the last of the data without padding. -/
def DecryptExact (file : List Byte) (s : SkeinSize) (m : ℕ) : Prop :=
  ∃ cs, (decryptReader file s m).Carries .init cs ∧ (∀ p ∈ cs, p.1.action ≠ .GEN_MAC → Exact p) ∧
    ∀ p ∈ (cs.filter (·.1.action == .GEN_MAC)).dropLast, Exact p

variable {file : List Byte} {s : SkeinSize} {m : ℕ}

/-- A first chunk that is too long to be read is not put out. -/
theorem encryptReader_stuck (hfile : file ≠ []) (hread : READ_MAX < min file.length m)
    {cs : List (Chunk × ℕ)} : ¬ (encryptReader file s m).Carries .init cs := by
  have hpos : 0 < file.length := List.length_pos_iff.mpr hfile
  intro h
  cases h with
  | done hno => simp [encryptReader, ReadState.init, hpos] at hno
  | next _ hnext _ _ =>
    simp only [encryptReader, ReadState.init, Nat.sub_zero] at hnext
    split at hnext
    · rw [readChunk_none _ (by omega)] at hnext
      cases hnext
    · rw [readChunk_none _ (by omega)] at hnext
      cases hnext

theorem encryptExact_iff (hfile : file ≠ []) (hm : 0 < m) :
    EncryptExact file s m ↔ (s.bytes ∣ m ∨ file.length ≤ m) ∧ min file.length m ≤ READ_MAX := by
  by_cases hread : min file.length m ≤ READ_MAX
  · have hcs := encryptReader_carries (s := s) hm hread
    rw [← exact_pieces_iff hm file s .ENCRYPT]
    constructor
    · rintro ⟨cs, h, hex⟩
      rw [h.unique hcs] at hex
      exact ⟨hex, hread⟩
    · rintro ⟨hex, -⟩
      exact ⟨_, hcs, hex⟩
  · constructor
    · rintro ⟨cs, h, -⟩
      exact absurd h (encryptReader_stuck hfile (not_le.mp hread))
    · rintro ⟨-, h⟩
      exact absurd h hread

/-- Nor is a first chunk of data after the header. -/
theorem decryptReader_stuck (hbig : isGreaterThanThreeBlocks file.length s = true)
    (hread : READ_MAX < min (file.length - 3 * s.bytes) m) (h64 : file.length + 2 * s.bytes < 2 ^ 64)
    {cs : List (Chunk × ℕ)} : ¬ (decryptReader file s m).Carries .init cs := by
  have hB := s.bytes_cases
  have hbig' : s.bytes * 3 < file.length := isGreaterThanThreeBlocks_iff.mp hbig
  intro h
  cases h with
  | done hno =>
    have hlen : file.length = 0 := by simpa [decryptReader, ReadState.init] using hno
    omega
  | @next _ t _ _ _ _ hnext _ h =>
    have ht : t = ⟨2 * s.bytes, false, false⟩ := by
      simp only [decryptReader, ReadState.init, if_true] at hnext
      rw [readChunk_eq _ (by omega) (by omega) (two_blocks_read s)] at hnext
      simp only [Option.map_some, Option.some.injEq, Prod.mk.injEq, Nat.zero_add] at hnext
      exact hnext.2.symm
    subst ht
    cases h with
    | done hno => simp [decryptReader] at hno; omega
    | next _ hnext _ _ =>
      have hleft : sub64 file.length (add64 (2 * s.bytes) s.bytes) = file.length - 3 * s.bytes := by
        rw [add64_eq (by omega), sub64_eq (by omega) (by omega)]; omega
      simp only [decryptReader, hleft, Bool.false_eq_true, if_false] at hnext
      by_cases hge : file.length - 3 * s.bytes ≥ m
      · simp only [if_pos hge, readChunk_none _ (by omega : READ_MAX < m)] at hnext
        cases hnext
      · have hlt : file.length - 3 * s.bytes < m ∧ file.length - 3 * s.bytes > 0 := by omega
        simp only [if_neg hge, if_pos hlt, readChunk_none _ (by omega : READ_MAX < file.length - 3 * s.bytes)] at hnext
        cases hnext

theorem decryptExact_iff (hbig : isGreaterThanThreeBlocks file.length s = true) (hm : 0 < m)
    (h64 : file.length + 2 * s.bytes < 2 ^ 64) :
    DecryptExact file s m ↔ (s.bytes ∣ m ∨ file.length - 3 * s.bytes ≤ m) ∧
      min (file.length - 3 * s.bytes) m ≤ READ_MAX := by
  have hbig' : s.bytes * 3 < file.length := isGreaterThanThreeBlocks_iff.mp hbig
  by_cases hread : min (file.length - 3 * s.bytes) m ≤ READ_MAX
  · have hcs := decryptReader_carries hbig hm hread h64
    set data := (pieces m (dataPart file s)).map (carried .GEN_MAC s) with hdata
    have hgen : ∀ p ∈ data, p.1.action = .GEN_MAC := by
      rw [hdata, List.forall_mem_map]
      exact fun _ _ => rfl
    have hfilter : (carried .CHECK_HEADER s (headerPart file s) :: data ++ [carried .MAC s (macPart file s)]).filter
        (·.1.action == .GEN_MAC) = data := by
      have : data.filter (·.1.action == .GEN_MAC) = data :=
        List.filter_eq_self.mpr fun p hp => by rw [hgen p hp]; rfl
      simp [carried, this]
    have hhead : Exact (carried .CHECK_HEADER s (headerPart file s)) := by
      refine exact_carried.mpr ⟨2, ?_⟩
      rw [headerPart, List.length_take]
      omega
    have htag : Exact (carried .MAC s (macPart file s)) := by
      refine exact_carried.mpr ⟨1, ?_⟩
      rw [macPart, List.length_drop]
      omega
    rw [← length_dataPart hbig, ← exact_pieces_iff hm (dataPart file s) s .GEN_MAC, ← hdata, length_dataPart hbig]
    constructor
    · rintro ⟨cs, h, -, hex⟩
      rw [h.unique hcs, hfilter] at hex
      exact ⟨hex, hread⟩
    · rintro ⟨hex, -⟩
      refine ⟨_, hcs, fun p hp hact => ?_, by rwa [hfilter]⟩
      rcases List.mem_append.mp hp with hp | hp
      · rcases List.mem_cons.mp hp with rfl | hp
        · exact hhead
        · exact absurd (hgen p hp) hact
      · rw [List.mem_singleton.mp hp]
        exact htag
  · constructor
    · rintro ⟨cs, h, -⟩
      exact absurd h (decryptReader_stuck hbig (not_le.mp hread) h64)
    · rintro ⟨-, h⟩
      exact absurd h hread

/-- A chunk size keeps padding out of the middle of a file exactly if it is whole
blocks, or all the data is one chunk, and one `read` delivers the longest chunk.
The length of a file is below `2^63`. -/
theorem chunk_size_suffices_iff (s : SkeinSize) (m : ℕ) (hm : 0 < m) :
    (∀ file, file ≠ [] → (EncryptExact file s m ↔
      (s.bytes ∣ m ∨ file.length ≤ m) ∧ min file.length m ≤ READ_MAX)) ∧
    (∀ file, isGreaterThanThreeBlocks file.length s = true → file.length < 2 ^ 63 → (DecryptExact file s m ↔
      (s.bytes ∣ m ∨ file.length - 3 * s.bytes ≤ m) ∧ min (file.length - 3 * s.bytes) m ≤ READ_MAX)) := by
  refine ⟨fun file hfile => encryptExact_iff hfile hm, fun file hbig hlen => decryptExact_iff hbig hm ?_⟩
  have := s.bytes_cases
  omega

theorem chunk_size_suffices_sample :
    EncryptExact (List.replicate 100 0) .Skein512 64 ∧ DecryptExact (List.replicate 300 0) .Skein512 64 := by
  have h := chunk_size_suffices_iff .Skein512 64 (by decide)
  refine ⟨(h.1 _ (by decide)).mpr ?_, (h.2 _ ?_ ?_).mpr ?_⟩ <;> rw [List.length_replicate]
  · exact ⟨Or.inl (by decide), by decide⟩
  · decide
  · decide
  · exact ⟨Or.inl (by decide), by decide⟩

/-- A multiple of 64 is not enough for Skein1024. -/
theorem chunk_size_64_pads :
    ¬ ∀ (m : ℕ) (s : SkeinSize), 0 < m → 64 ∣ m →
      (∀ file, file ≠ [] → EncryptExact file s m) ∧
      ∀ file, isGreaterThanThreeBlocks file.length s = true → file.length < 2 ^ 63 → DecryptExact file s m := by
  intro h
  have henc := (h 64 .Skein1024 (by decide) dvd_rfl).1 (List.replicate 65 0) (by decide)
  have hcond := ((encryptExact_iff (by decide) (by decide)).mp henc).1
  rw [List.length_replicate] at hcond
  exact absurd hcond (by decide)

end Threefizer
