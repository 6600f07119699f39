/-
# What the tag is checked against

`authenticateMAC` gives the data of all chunks before the tag to the MAC and
compares the result with the tag. For a file longer than three blocks that is
the header and the data, padded with zeros to whole blocks, and the last block
(`authenticatedPair_eq`). The length of the data is not part of it: zero bytes
that are added to the data, or taken away from its end, within its last block
change neither (`authenticated_determines_file_iff`).
-/
import Threefizer.DecryptFile
import Threefizer.Skein3fish

namespace Threefizer

open Words Queue

/-- The runs of bytes the first loop of `authenticateMAC` gives to
`skeinUpdate`, and the stored tag the second one compares with, on the chunks
of its input queue; none when there is no tag to compare with. -/
def macRuns : List Chunk → Option (List (List Byte) × List Word)
  | [] => none
  | c :: cs =>
    if c.action = .MAC then some ([], c.data)
    else if c.action = .DONE then none
    else (macRuns cs).map fun (runs, tag) => (c.bytes :: runs, tag)

/-- They are what the loop of `authenticateMAC` works with. -/
theorem macLoop_of_macRuns {sk : Skein} (mc : MacCtx sk) : ∀ (cs : List Chunk) (ctx : sk.Ctx) {runs : List (List Byte)}
    {tag : List Word}, macRuns cs = some (runs, tag) →
    ∃ outs, AuthThread.macLoop mc ctx cs = some (outs,
      if AuthThread.tagsEqual mc (sk.skeinFinal (runs.foldl sk.skeinUpdate ctx)) tag = true then none
      else some .MAC_CHECK_FAIL)
  | [], _, _, _, h => by cases h
  | c :: cs, ctx, runs, tag, h => by
    rw [macRuns] at h
    split at h
    next hm =>
      cases h
      rw [AuthThread.macLoop, if_pos hm, AuthThread.checkTag, List.foldl_nil]
      by_cases ht : AuthThread.tagsEqual mc (sk.skeinFinal ctx) c.data = true
      · exact ⟨_, by rw [if_pos ⟨hm, ht⟩, if_pos ht]⟩
      · exact ⟨_, by rw [if_neg fun h => ht h.2, if_neg ht]⟩
    next hm =>
      split at h
      · cases h
      next hd =>
        obtain ⟨⟨runs', tag'⟩, hr, hx⟩ := Option.map_eq_some_iff.mp h
        cases hx
        obtain ⟨outs, ho⟩ := macLoop_of_macRuns mc cs (sk.skeinUpdate ctx c.bytes) hr
        refine ⟨AuthThread.passed mc c :: outs, ?_⟩
        rw [AuthThread.macLoop, if_neg hm, if_neg hd, ho]
        rfl

variable (tf : Threefish) (tf_key : ThreefishKey)

/-- What `authenticateMAC` gives to the MAC and the tag it compares with when
`queueFileForDecrypt` reads `file`; none when it stops at the header. -/
def authenticatedPair (file : List Byte) : Option (List Byte × List Word) :=
  ((decryptReader file tf_key.stateSize MAX_CHUNK_SIZE).queueFile file.length).bind fun cs =>
    if cs.head?.bind (AuthThread.headerSize tf tf_key) = none then none
    else (macRuns cs).map fun (runs, tag) => (runs.flatten, tag)

/-- The header of a file is rejected. -/
def HeaderRejected (file : List Byte) : Prop :=
  AuthThread.headerSize tf tf_key (checkChunk file tf_key.stateSize) = none

/-- The file `F'` is `F` with zero bytes put in before the last block of the
file, so few that the data does not reach into a new block. -/
def ZerosAdded (s : SkeinSize) (F F' : List Byte) : Prop :=
  headerPart F' s = headerPart F s ∧ macPart F' s = macPart F s ∧
    (∃ k, dataPart F' s = dataPart F s ++ List.replicate k 0) ∧
    blockCount (dataPart F' s).length s = blockCount (dataPart F s).length s

variable {tf tf_key}

/-! ### Padding -/

/-- Two runs are padded alike if the longer is the other with zeros in the last block. -/
theorem padded_eq_iff {s : SkeinSize} {x y : List Byte} (hle : x.length ≤ y.length) :
    padded x s = padded y s ↔
      (∃ k, y = x ++ List.replicate k 0) ∧ blockCount y.length s = blockCount x.length s := by
  have hx := le_blockCount_mul x.length s
  have hy := le_blockCount_mul y.length s
  constructor
  · intro h
    have hcount : blockCount x.length s = blockCount y.length s := by
      have hlen := congrArg List.length h
      rw [length_padded, length_padded] at hlen
      exact Nat.eq_of_mul_eq_mul_right s.bytes_pos hlen
    rw [← hcount] at hy
    refine ⟨⟨y.length - x.length, ?_⟩, hcount.symm⟩
    calc y = (padded y s).take y.length := by rw [padded, List.take_left]
      _ = (padded x s).take y.length := by rw [h]
      _ = x ++ List.replicate (y.length - x.length) 0 := by
        rw [padded, List.take_append, List.take_of_length_le hle, List.take_replicate, min_eq_left (by omega)]
  · rintro ⟨⟨k, rfl⟩, hcount⟩
    rw [List.length_append, List.length_replicate] at hcount hy
    rw [hcount] at hy
    rw [padded, padded, List.length_append, List.length_replicate, hcount, List.append_assoc,
      List.replicate_append_replicate]
    congr 2
    omega

/-! ### The pair of a file -/

theorem macRuns_plan {cs : List Chunk} (hcs : ∀ c ∈ cs, c.action ≠ .MAC ∧ c.action ≠ .DONE) {m : Chunk}
    (hm : m.action = .MAC) (rest : List Chunk) :
    macRuns (cs ++ m :: rest) = some (cs.map Chunk.bytes, m.data) := by
  induction cs with
  | nil => rw [List.nil_append, macRuns, if_pos hm]; rfl
  | cons c cs ih =>
    obtain ⟨h1, h2⟩ := hcs c List.mem_cons_self
    rw [List.cons_append, macRuns, if_neg h1, if_neg h2, ih fun d hd => hcs d (List.mem_cons_of_mem _ hd)]
    rfl

section File

variable {F F' : List Byte}

/-- The header and the padded data, and the last block. -/
theorem authenticatedPair_eq (hbig : isGreaterThanThreeBlocks F.length tf_key.stateSize = true)
    (hfits : F.length + 2 * tf_key.stateSize.bytes < 2 ^ 64) (hgood : ¬ HeaderRejected tf tf_key F) :
    authenticatedPair tf tf_key F = some
      (headerPart F tf_key.stateSize ++ padded (dataPart F tf_key.stateSize) tf_key.stateSize,
        wordsOf (macPart F tf_key.stateSize)) := by
  set s := tf_key.stateSize with hs
  obtain ⟨hpos, hdvd, hread⟩ := MAX_CHUNK_SIZE_ok s
  have hhead : padded (headerPart F s) s = headerPart F s :=
    padded_of_dvd (by rw [length_headerPart hbig]; exact Nat.dvd_mul_left _ _)
  have hmac : (macChunk F s).data = wordsOf (macPart F s) := by
    show wordsOf (padded _ _) = _
    rw [padded_of_dvd (by rw [length_macPart hbig])]
  have hplan : macRuns (decryptPlan F s MAX_CHUNK_SIZE ++ [doneChunk]) = some
      ((checkChunk F s :: macPlan F s MAX_CHUNK_SIZE).map Chunk.bytes, wordsOf (macPart F s)) := by
    rw [decryptPlan, List.append_assoc, List.singleton_append, ← hmac]
    refine macRuns_plan (fun c hc => ?_) rfl _
    rcases List.mem_cons.mp hc with rfl | hc
    · exact ⟨Action.noConfusion, Action.noConfusion⟩
    · obtain ⟨p, -, rfl⟩ := List.mem_map.mp hc
      exact ⟨Action.noConfusion, Action.noConfusion⟩
  rw [authenticatedPair, queueFile_decrypt hbig hpos (min_le_of_right_le hread) hfits, Option.bind_some, if_neg (by exact hgood), hplan]
  simp only [Option.map_some, ← List.flatMap_def]
  rw [List.flatMap_cons, checkChunk, dataChunk_bytes, hhead, macPlan, List.flatMap_map]
  simp only [dataChunk_bytes]
  rw [flatMap_padded_pieces hpos hdvd]

theorem authenticatedPair_rejected (hbig : isGreaterThanThreeBlocks F.length tf_key.stateSize = true)
    (hfits : F.length + 2 * tf_key.stateSize.bytes < 2 ^ 64) (hbad : HeaderRejected tf tf_key F) :
    authenticatedPair tf tf_key F = none := by
  obtain ⟨hpos, -, hread⟩ := MAX_CHUNK_SIZE_ok tf_key.stateSize
  rw [authenticatedPair, queueFile_decrypt hbig hpos (min_le_of_right_le hread) hfits, Option.bind_some, if_pos (by exact hbad)]

/-- The header check looks at the header only. -/
theorem HeaderRejected.congr (h : headerPart F' tf_key.stateSize = headerPart F tf_key.stateSize) :
    HeaderRejected tf tf_key F' ↔ HeaderRejected tf tf_key F := by
  rw [HeaderRejected, HeaderRejected, checkChunk, checkChunk, h]

/-- Two files whose headers are accepted give the same pair. -/
theorem pairs_eq_iff {s : SkeinSize} (hbig : isGreaterThanThreeBlocks F.length s = true)
    (hbig' : isGreaterThanThreeBlocks F'.length s = true) :
    (headerPart F s ++ padded (dataPart F s) s, wordsOf (macPart F s)) =
        (headerPart F' s ++ padded (dataPart F' s) s, wordsOf (macPart F' s)) ↔
      ZerosAdded s F F' ∨ ZerosAdded s F' F := by
  have hhead : (headerPart F s).length = (headerPart F' s).length := by
    rw [length_headerPart hbig, length_headerPart hbig']
  have hwords : wordsOf (macPart F s) = wordsOf (macPart F' s) ↔ macPart F s = macPart F' s := by
    have hdvd : ∀ {G : List Byte}, isGreaterThanThreeBlocks G.length s = true → 8 ∣ (macPart G s).length :=
      fun hG => by rw [length_macPart hG, s.bytes_eq]; exact Nat.dvd_mul_right _ _
    refine ⟨fun h => ?_, congrArg _⟩
    rw [← bytesOf_wordsOf (hdvd hbig), h, bytesOf_wordsOf (hdvd hbig')]
  rw [Prod.mk.injEq, hwords]
  constructor
  · rintro ⟨h, hm⟩
    obtain ⟨hh, hd⟩ := List.append_inj h hhead
    rcases Nat.le_total (dataPart F s).length (dataPart F' s).length with hle | hle
    · exact Or.inl ⟨hh.symm, hm.symm, (padded_eq_iff hle).mp hd⟩
    · exact Or.inr ⟨hh, hm, (padded_eq_iff hle).mp hd.symm⟩
  · have hle : ∀ {G G' : List Byte}, (∃ k, dataPart G' s = dataPart G s ++ List.replicate k 0) →
        (dataPart G s).length ≤ (dataPart G' s).length := by
      rintro G G' ⟨k, hk⟩
      rw [hk, List.length_append]
      exact Nat.le_add_right _ _
    rintro (⟨hh, hm, hd⟩ | ⟨hh, hm, hd⟩)
    · exact ⟨by rw [hh, (padded_eq_iff (hle hd.1)).mpr hd], hm.symm⟩
    · exact ⟨by rw [hh, (padded_eq_iff (hle hd.1)).mpr hd], hm⟩

end File

/-- What is authenticated of two different files differs, unless the header is
accepted and one of them is the other with zeros added in the last block of
the data. -/
theorem authenticated_determines_file_iff (tf : Threefish) (tf_key : ThreefishKey) (F F' : List Byte)
    (hbig : isGreaterThanThreeBlocks F.length tf_key.stateSize = true)
    (hbig' : isGreaterThanThreeBlocks F'.length tf_key.stateSize = true)
    (hfits : F.length + 2 * tf_key.stateSize.bytes < 2 ^ 64)
    (hfits' : F'.length + 2 * tf_key.stateSize.bytes < 2 ^ 64) :
    (∀ p, authenticatedPair tf tf_key F = some p → authenticatedPair tf tf_key F' ≠ some p) ↔
      HeaderRejected tf tf_key F ∨
        ¬ (ZerosAdded tf_key.stateSize F F' ∨ ZerosAdded tf_key.stateSize F' F) := by
  by_cases hbad : HeaderRejected tf tf_key F
  · refine iff_of_true (fun p hp => ?_) (Or.inl hbad)
    rw [authenticatedPair_rejected hbig hfits hbad] at hp
    cases hp
  · rw [or_iff_right hbad, ← pairs_eq_iff hbig hbig']
    have hp := authenticatedPair_eq hbig hfits hbad
    by_cases hbad' : HeaderRejected tf tf_key F'
    · -- a header that is rejected is another header
      refine iff_of_true (fun p _ h => ?_) (fun h => ?_)
      · rw [authenticatedPair_rejected hbig' hfits' hbad'] at h
        cases h
      · have hhead := (List.append_inj (Prod.mk.inj h).1 (by
          rw [length_headerPart hbig, length_headerPart hbig'])).1
        exact hbad ((HeaderRejected.congr hhead.symm).mp hbad')
    · rw [hp, authenticatedPair_eq hbig' hfits' hbad']
      constructor
      · exact fun h heq => h _ rfl (congrArg some heq.symm)
      · rintro h p hp hp'
        cases hp
        exact h (Option.some.inj hp').symm

/-- A file with the header of the sample and the given data. -/
def fileWith (data : List Byte) : List Byte :=
  Skein3fish.sampleFile.take 64 ++ data ++ List.replicate 32 1

/-- The key the sample is encrypted with. -/
def sampleKey : ThreefishKey := (Skein3fish.sampleJob false Skein3fish.sampleFile).tf_key

theorem sample_big (b : Byte) : isGreaterThanThreeBlocks (fileWith [b]).length sampleKey.stateSize = true := by
  rw [show (fileWith [b]).length = (fileWith [0]).length from rfl]
  decide +kernel

theorem sample_fits (b : Byte) : (fileWith [b]).length + 2 * sampleKey.stateSize.bytes < 2 ^ 64 := by
  rw [show (fileWith [b]).length = (fileWith [0]).length from rfl]
  decide +kernel

theorem sample_accepted : ¬ HeaderRejected Skein3fish.threefish sampleKey (fileWith [7]) := by
  unfold HeaderRejected
  decide +kernel

theorem authenticated_determines_file_sample : authenticatedPair Skein3fish.threefish sampleKey (fileWith [7]) ≠
    authenticatedPair Skein3fish.threefish sampleKey (fileWith [8]) := by
  have h7 : dataPart (fileWith [7]) sampleKey.stateSize = [7] := by decide +kernel
  have h8 : dataPart (fileWith [8]) sampleKey.stateSize = [8] := by decide +kernel
  have hiff := authenticated_determines_file_iff Skein3fish.threefish sampleKey (fileWith [7]) (fileWith [8])
    (sample_big 7) (sample_big 8) (sample_fits 7) (sample_fits 8)
  have hpair := authenticatedPair_eq (sample_big 7) (sample_fits 7) sample_accepted
  intro heq
  refine hiff.mpr (Or.inr ?_) _ hpair (heq ▸ hpair)
  rintro (⟨-, -, ⟨k, hk⟩, -⟩ | ⟨-, -, ⟨k, hk⟩, -⟩) <;> rw [h7, h8] at hk <;>
    exact absurd (List.cons.inj hk).1 (by decide)

/-- A zero byte added to the data is not noticed. -/
theorem zeros_not_authenticated : ¬ ∀ (tf : Threefish) (tf_key : ThreefishKey) (F F' : List Byte),
    isGreaterThanThreeBlocks F.length tf_key.stateSize = true →
    isGreaterThanThreeBlocks F'.length tf_key.stateSize = true →
    F.length + 2 * tf_key.stateSize.bytes < 2 ^ 64 → F'.length + 2 * tf_key.stateSize.bytes < 2 ^ 64 → F ≠ F' →
    ∀ p, authenticatedPair tf tf_key F = some p → authenticatedPair tf tf_key F' ≠ some p := by
  intro h
  have hbig' : isGreaterThanThreeBlocks (fileWith [7, 0]).length sampleKey.stateSize = true := by decide +kernel
  have hfits' : (fileWith [7, 0]).length + 2 * sampleKey.stateSize.bytes < 2 ^ 64 := by decide +kernel
  have hhead : headerPart (fileWith [7, 0]) sampleKey.stateSize = headerPart (fileWith [7]) sampleKey.stateSize := by
    decide +kernel
  have hadded : ZerosAdded sampleKey.stateSize (fileWith [7]) (fileWith [7, 0]) :=
    ⟨hhead, by decide +kernel, ⟨1, by decide +kernel⟩, by decide +kernel⟩
  refine h Skein3fish.threefish sampleKey (fileWith [7]) (fileWith [7, 0]) (sample_big 7) hbig' (sample_fits 7) hfits'
    (by decide +kernel) _ (authenticatedPair_eq (sample_big 7) (sample_fits 7) sample_accepted) ?_
  rw [authenticatedPair_eq hbig' hfits' fun hbad => sample_accepted ((HeaderRejected.congr hhead).mp hbad),
    (pairs_eq_iff (sample_big 7) hbig').mpr (Or.inl hadded)]

end Threefizer
