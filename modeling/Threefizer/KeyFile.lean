/-
# Hashing a key file (`hashKeyFromFile` of `hash.c`)

The file is hashed in chunks of `HASH_BUFFER_SIZE` bytes, counted down to 0 in
an unsigned variable. A chunk is never larger than what is left and never
empty, so the loop ends at 0 exactly (`hashed_hashFileLoop`); the chunks are the
file cut up, and feeding them one after the other is feeding the file, so the
key is that of `keyHash` on the content (`hashKeyFromFile_eq_keyHash`). A read
that fails ends the call with a null pointer, whatever was hashed before.
-/
import Threefizer.Key

namespace Threefizer
namespace Key

open Words Skein3fish

/-- The size of the next chunk. -/
def chunkSize (bytes_to_hash : ℕ) : ℕ :=
  if bytes_to_hash < HASH_BUFFER_SIZE then bytes_to_hash else HASH_BUFFER_SIZE

/-- The next chunk, none for a null pointer. -/
def hashChunk (file : List Byte) (o : ℕ → Outcome) (offset bytes_to_hash : ℕ) : Option (List Byte) :=
  if o offset = .success then readBytes file offset (chunkSize bytes_to_hash) else none

/-- The loop of `hashKeyFromFile` comes to an end: with the context in which
all is hashed, or with none when it returns a null pointer. -/
inductive Hashed (file : List Byte) (o : ℕ → Outcome) : ℕ → ℕ → SkeinCtx → Option SkeinCtx → Prop
  | done {offset : ℕ} {ctx : SkeinCtx} : Hashed file o offset 0 ctx (some ctx)
  | failed {offset bytes_to_hash : ℕ} {ctx : SkeinCtx} : bytes_to_hash ≠ 0 →
      hashChunk file o offset bytes_to_hash = none → Hashed file o offset bytes_to_hash ctx none
  | next {offset bytes_to_hash : ℕ} {ctx : SkeinCtx} {chunk : List Byte} {r : Option SkeinCtx} :
      bytes_to_hash ≠ 0 → hashChunk file o offset bytes_to_hash = some chunk →
      Hashed file o (offset + chunkSize bytes_to_hash) (bytes_to_hash - chunkSize bytes_to_hash)
        (skeinUpdate ctx chunk) r → Hashed file o offset bytes_to_hash ctx r

variable {file : List Byte} {o : ℕ → Outcome} {offset left : ℕ} {ctx : SkeinCtx}

/-! ### Every round hashes a byte -/

theorem chunkSize_le (left : ℕ) : chunkSize left ≤ left := by
  unfold chunkSize
  split <;> omega

theorem chunkSize_pos (h : left ≠ 0) : 0 < chunkSize left := by
  have : 0 < HASH_BUFFER_SIZE := by decide
  unfold chunkSize
  split <;> omega

/-- It ends in one way. -/
theorem Hashed.unique {r r' : Option SkeinCtx} (h : Hashed file o offset left ctx r) :
    Hashed file o offset left ctx r' → r = r' := by
  induction h generalizing r' with
  | done =>
    intro h'
    cases h' with
    | done => rfl
    | failed h0 => exact absurd rfl h0
    | next h0 => exact absurd rfl h0
  | failed h0 hc =>
    intro h'
    cases h' with
    | done => exact absurd rfl h0
    | failed => rfl
    | next _ hc' => cases hc.symm.trans hc'
  | next h0 hc _ ih =>
    intro h'
    cases h' with
    | done => exact absurd rfl h0
    | failed _ hc' => cases hc.symm.trans hc'
    | next _ hc' hr =>
      cases hc.symm.trans hc'
      exact ih hr

/-- One round of the loop. -/
theorem hashFileLoop_succ (fuel : ℕ) : hashFileLoop file o (fuel + 1) offset left ctx =
    if left = 0 then some ctx
    else (hashChunk file o offset left).bind fun chunk =>
      hashFileLoop file o fuel (offset + chunkSize left) (left - chunkSize left) (skeinUpdate ctx chunk) := rfl

/-- A round for every byte is enough. -/
theorem hashed_hashFileLoop {fuel : ℕ} (hfuel : left < fuel) :
    Hashed file o offset left ctx (hashFileLoop file o fuel offset left ctx) := by
  induction fuel generalizing offset left ctx with
  | zero => exact absurd hfuel (Nat.not_lt_zero _)
  | succ fuel ih =>
    rw [hashFileLoop_succ]
    by_cases h0 : left = 0
    · subst h0
      exact .done
    · have hpos := chunkSize_pos h0
      rw [if_neg h0]
      cases hc : hashChunk file o offset left with
      | none => exact .failed h0 hc
      | some chunk => exact .next h0 hc (ih (by omega))

/-! ### The chunks are the content -/

theorem skeinUpdate_skeinUpdate (ctx : SkeinCtx) (a b : List Byte) :
    skeinUpdate (skeinUpdate ctx a) b = skeinUpdate ctx (a ++ b) := by
  simp only [skeinUpdate, List.append_assoc]

/-- A chunk is the next bytes of the file. -/
theorem hashChunk_eq {chunk : List Byte} (hc : hashChunk file o offset left = some chunk) :
    chunk = (file.drop offset).take (chunkSize left) := by
  unfold hashChunk at hc
  split at hc
  · exact (readBytes_some hc).2.2
  · cases hc

/-- A loop that gets to its end has hashed the next `left` bytes. -/
theorem Hashed.eq_update {ctx' : SkeinCtx} {r : Option SkeinCtx} (h : Hashed file o offset left ctx r)
    (hr : r = some ctx') : ctx' = skeinUpdate ctx ((file.drop offset).take left) := by
  induction h with
  | done =>
    cases hr
    simp [skeinUpdate]
  | failed => cases hr
  | @next offset left ctx chunk r h0 hc _ ih =>
    have hle := chunkSize_le left
    calc ctx' = skeinUpdate (skeinUpdate ctx chunk)
          ((file.drop (offset + chunkSize left)).take (left - chunkSize left)) := ih hr
      _ = skeinUpdate ctx ((file.drop offset).take (chunkSize left) ++
          ((file.drop offset).drop (chunkSize left)).take (left - chunkSize left)) := by
        rw [skeinUpdate_skeinUpdate, hashChunk_eq hc, List.drop_drop]
      _ = skeinUpdate ctx ((file.drop offset).take left) := by
        rw [← List.take_add, Nat.add_sub_cancel' hle]

/-- The reads of the key file all succeed; they are `HASH_BUFFER_SIZE` bytes apart. -/
def ReadsSucceed (file : List Byte) (o : ℕ → Outcome) : Prop :=
  ∀ k, k * HASH_BUFFER_SIZE < file.length → o (k * HASH_BUFFER_SIZE) = .success

/-- **The key of a key file is the hash of its content.** On a file that is not
empty the loop ends, in one way; if all reads succeed the key is the one
`keyHash` makes of the content in memory, and if one fails there is none. -/
theorem hashKeyFromFile_eq_keyHash (fs : FileSystem) (o : ℕ → Outcome) (fname : Path) (K : List Byte)
    (s : SkeinSize) (hfile : fs fname = some K) (hK : K ≠ []) :
    (∃! r, Hashed K o 0 K.length (configure s (List.replicate s.words 0)) r) ∧
      (ReadsSucceed K o → hashKeyFromFile fs o fname s = some (keyHash s K)) ∧
      (¬ ReadsSucceed K o → hashKeyFromFile fs o fname s = none) := by
  set ctx := configure s (List.replicate s.words 0)
  have hlen : K.length ≠ 0 := fun h => hK (List.length_eq_zero_iff.mp h)
  have hkey : hashKeyFromFile fs o fname s =
      (hashFileLoop K o (K.length + 1) 0 K.length ctx).map skeinFinal := by
    rw [hashKeyFromFile, hfile, Option.bind_some, if_neg hlen]
  have hloop := @hashed_hashFileLoop K o 0 K.length ctx _ (Nat.lt_succ_self K.length)
  have hreads : (hashFileLoop K o (K.length + 1) 0 K.length ctx).isSome ↔ ReadsSucceed K o := by
    have h := @hashFileLoop_isSome K o _ 0 K.length ctx (Nat.zero_add _) (Nat.lt_succ_self K.length)
    simp only [Nat.zero_add] at h
    exact h
  refine ⟨⟨_, hloop, fun r hr => hr.unique hloop⟩, fun hok => ?_, fun hfail => ?_⟩
  · obtain ⟨ctx', h⟩ := Option.isSome_iff_exists.mp (hreads.mpr hok)
    rw [hkey, h, hloop.eq_update h, List.drop_zero, List.take_length]
    rfl
  · rw [hkey, Option.not_isSome_iff_eq_none.mp (mt hreads.mp hfail)]
    rfl

/-- A key file of three bytes. -/
theorem hashKeyFromFile_eq_keyHash_three :
    hashKeyFromFile (fun _ => some [1, 2, 3]) (fun _ => .success) [] .Skein256 =
      some (keyHash .Skein256 [1, 2, 3]) :=
  (hashKeyFromFile_eq_keyHash (fun _ => some [1, 2, 3]) (fun _ => .success) [] [1, 2, 3] .Skein256 rfl
    (List.cons_ne_nil _ _)).2.1 fun _ _ => rfl

end Key
end Threefizer
