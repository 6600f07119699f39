/-
# The name of the temp file (`controller.c`, `hash.c`, `util.c`)

"The temp file name is a partial skein hash of the original file name", in hex.
So it is a string of twenty hex digits, without a slash: the temp file is in
the working directory. The digits can be read back (`fromHex_hexDigits`), so
two targets share a temp file exactly if the hashes of their names collide, and
a target with any other name than twenty digits is never its own temp file
(`temp_file_name_spec`).
-/
import Threefizer.Lib.Overlay
import Threefizer.SkeinUbi

namespace Threefizer

open Words

namespace TempName

/-! ### Hex -/

/-- `hex_lookup`, the digits as characters. -/
def hex_lookup : List Byte := [48, 49, 50, 51, 52, 53, 54, 55, 56, 57, 65, 66, 67, 68, 69, 70]

def hexLookupNibble (nibble : Byte) : Byte := if nibble > 15 then 0 else hex_lookup.getD nibble.toNat 0

/-- One round of the loop of `binToHex`. -/
def hexStep (src : List Byte) (hex : List Byte) (i : ℕ) : List Byte :=
  (hex.set (2 * i) (hexLookupNibble ((src.getD i 0 &&& 0xf0) >>> 4))).set (2 * i + 1)
    (hexLookupNibble (src.getD i 0 &&& 0x0f))

/-- `binToHex`: the digits and a terminator. -/
def binToHex (src : Option (List Byte)) (size : ℕ) : Option (List Byte) :=
  match src with
  | none => none
  | some src =>
    if size = 0 then none else some ((List.range size).foldl (hexStep src) (List.replicate (2 * size + 1) 0))

/-- The bytes of a string in C. -/
def cString (bs : List Byte) : List Byte := bs.takeWhile (· ≠ 0)

/-- `skeinHash`: a digest of `digest_length` bytes and a terminator. -/
def skeinHash (input : Option (List Byte)) (digest_length : ℕ) (s : SkeinSize) : Option (List Byte) :=
  input.map fun input =>
    let skein_state := SkeinStream.skeinInit (SkeinStream.skeinCtxPrepare s) (digest_length * 8)
    let skein_state := SkeinStream.skeinUpdate skein_state (cString input)
    Overlay.writeAt 0 (List.replicate (digest_length + 1) 0) 0 (SkeinStream.skeinFinal skein_state).2

def TEMP_FILE_NAME_SIZE : ℕ := 10

/-- `temp_file_name` of `runThreefizer`, as `open` reads it. -/
def tempFileName (s : SkeinSize) (target_file : Path) : Option Path :=
  (binToHex (skeinHash (some target_file) TEMP_FILE_NAME_SIZE s) TEMP_FILE_NAME_SIZE).map cString

/-! ### Digits -/

/-- The two digits of a byte. -/
def digits (b : Byte) : List Byte := [hexLookupNibble ((b &&& 0xf0) >>> 4), hexLookupNibble (b &&& 0x0f)]

def hexDigits (bs : List Byte) : List Byte := bs.flatMap digits

/-- Reading digits back, two for a byte. -/
def fromHex : List Byte → List Byte
  | hi :: lo :: hex => UInt8.ofNat (16 * hex_lookup.idxOf hi + hex_lookup.idxOf lo) :: fromHex hex
  | _ => []

theorem digits_spec (b : Byte) :
    digits b = [hex_lookup.getD (b.toNat / 16) 0, hex_lookup.getD (b.toNat % 16) 0] := by
  have h : ∀ n, n < 256 →
      digits (UInt8.ofNat n) = [hex_lookup.getD (n / 16) 0, hex_lookup.getD (n % 16) 0] := by
    decide +kernel
  have hb := h b.toNat b.toNat_lt
  rwa [UInt8.ofNat_toNat] at hb

theorem length_hexDigits (bs : List Byte) : (hexDigits bs).length = 2 * bs.length := by
  induction bs with
  | nil => rfl
  | cons b bs ih =>
    rw [hexDigits, List.flatMap_cons, List.length_append, List.length_cons]
    change 2 + (hexDigits bs).length = _
    omega

theorem mem_digits {b c : Byte} (h : c ∈ digits b) : c ∈ hex_lookup := by
  have hget : ∀ n, n < 16 → hex_lookup.getD n 0 ∈ hex_lookup := by decide
  rw [digits_spec] at h
  have hb := b.toNat_lt
  rcases List.mem_cons.mp h with rfl | h
  · exact hget _ (by omega)
  · rw [List.mem_singleton.mp h]
    exact hget _ (Nat.mod_lt _ (by decide))

theorem mem_hexDigits {bs : List Byte} {c : Byte} (h : c ∈ hexDigits bs) : c ∈ hex_lookup := by
  obtain ⟨b, -, hc⟩ := List.mem_flatMap.mp h
  exact mem_digits hc

/-- **The digits say what the bytes were.** -/
theorem fromHex_hexDigits (bs : List Byte) : fromHex (hexDigits bs) = bs := by
  have hidx : ∀ n, n < 16 → hex_lookup.idxOf (hex_lookup.getD n 0) = n := by decide
  induction bs with
  | nil => rfl
  | cons b bs ih =>
    have hb := b.toNat_lt
    have hcons : hexDigits (b :: bs) =
        hex_lookup.getD (b.toNat / 16) 0 :: hex_lookup.getD (b.toNat % 16) 0 :: hexDigits bs := by
      rw [hexDigits, List.flatMap_cons, digits_spec]
      rfl
    rw [hcons, fromHex, ih, hidx _ (by omega), hidx _ (Nat.mod_lt _ (by decide)), Nat.div_add_mod]
    exact congrArg (· :: bs) (UInt8.ofNat_toNat)

/-! ### The loop -/

/-- After `n` rounds the digits of `n` bytes stand in front of zeros. -/
theorem foldl_hexStep (src : List Byte) (size : ℕ) : ∀ n, n ≤ size → n ≤ src.length →
    (List.range n).foldl (hexStep src) (List.replicate (2 * size + 1) 0) =
      hexDigits (src.take n) ++ List.replicate (2 * size + 1 - 2 * n) 0 := by
  intro n
  induction n with
  | zero => intro _ _; rfl
  | succ n ih =>
    intro hsize hsrc
    have hlen : (hexDigits (src.take n)).length = 2 * n := by
      rw [length_hexDigits, List.length_take, Nat.min_eq_left (by omega)]
    have hget : src.getD n 0 = src[n] := by
      rw [List.getD_eq_getElem?_getD, List.getElem?_eq_getElem (by omega)]
      rfl
    have htake : hexDigits (src.take (n + 1)) = hexDigits (src.take n) ++ digits src[n] := by
      rw [List.take_succ_eq_append_getElem (by omega), hexDigits, List.flatMap_append, List.flatMap_singleton]
      rfl
    have hzeros : List.replicate (2 * size + 1 - 2 * n) (0 : Byte) =
        0 :: 0 :: List.replicate (2 * size + 1 - 2 * (n + 1)) 0 := by
      rw [← List.replicate_succ, ← List.replicate_succ]
      congr 1
      omega
    have hlow : 2 * n + 1 - 2 * n = 1 := by omega
    rw [List.range_succ, List.foldl_append, ih (by omega) (by omega), List.foldl_cons, List.foldl_nil, hexStep, hget,
      hzeros, List.set_append_right _ _ hlen.le, hlen, Nat.sub_self, List.set_cons_zero,
      List.set_append_right _ _ (by omega), hlen, hlow, List.set_cons_succ, List.set_cons_zero, htake,
      List.append_assoc]
    rfl

theorem binToHex_eq {src : List Byte} {size : ℕ} (hpos : 0 < size) (h : size ≤ src.length) :
    binToHex (some src) size = some (hexDigits (src.take size) ++ [0]) := by
  have hone : 2 * size + 1 - 2 * size = 1 := by omega
  simp only [binToHex]
  rw [if_neg hpos.ne', foldl_hexStep src size size le_rfl h, hone]
  rfl

theorem cString_append {bs : List Byte} (h : (0 : Byte) ∉ bs) (rest : List Byte) :
    cString (bs ++ rest) = bs ++ cString rest := by
  apply List.takeWhile_append_of_pos
  intro b hb
  simpa using fun hzero : b = 0 => h (hzero ▸ hb)

theorem cString_append_zero {bs : List Byte} (h : (0 : Byte) ∉ bs) : cString (bs ++ [0]) = bs :=
  (cString_append h [0]).trans (List.append_nil bs)

theorem cString_eq_self {bs : List Byte} (h : (0 : Byte) ∉ bs) : cString bs = bs := by
  have happ := cString_append h []
  rwa [List.append_nil, show cString [] = [] from rfl, List.append_nil] at happ

/-! ### The name -/

/-- The hash as it is defined, and a terminator. -/
theorem skeinHash_eq {input : List Byte} (h0 : (0 : Byte) ∉ input) (hlen : input.length < 2 ^ 64) (s : SkeinSize)
    (digest_length : ℕ) : skeinHash (some input) digest_length s =
      some (SkeinUbi.skein s [] (digest_length * 8) input ++ [0]) ∧
    (SkeinUbi.skein s [] (digest_length * 8) input).length = digest_length := by
  have hdigest : (SkeinStream.skeinFinal (SkeinStream.skeinUpdate
      (SkeinStream.skeinInit (SkeinStream.skeinCtxPrepare s) (digest_length * 8)) input)).2 =
      SkeinApi.skeinFinal (SkeinApi.skeinUpdate (SkeinApi.skeinMacInit s [] (digest_length * 8)) input) :=
    ((SkeinStream.holds_init _ _ []).skeinUpdate input).digest ((SkeinStream.keyed_init _ _ []).skeinUpdate input)
  have hskein := @SkeinUbi.digest_eq s [] input (by decide) hlen (digest_length * 8)
  have hlength : (SkeinUbi.skein s [] (digest_length * 8) input).length = digest_length := by
    rw [← hskein, SkeinApi.length_skeinFinal]
    show (digest_length * 8 + 7) / 8 = digest_length
    omega
  refine ⟨?_, hlength⟩
  show some (Overlay.writeAt 0 _ 0 (SkeinStream.skeinFinal (SkeinStream.skeinUpdate _ (cString input))).2) = _
  rw [cString_eq_self h0, hdigest, hskein, Overlay.writeAt, List.replicate_succ', Nat.zero_add, hlength,
    List.drop_append_of_le_length (by rw [List.length_replicate]), List.drop_replicate, Nat.sub_self, Nat.zero_sub]
  rfl

theorem tempFileName_eq {target_file : Path} (h0 : (0 : Byte) ∉ target_file) (hlen : target_file.length < 2 ^ 64)
    (s : SkeinSize) : tempFileName s target_file = some (hexDigits (SkeinUbi.skein s [] 80 target_file)) := by
  obtain ⟨hhash, hlength⟩ := skeinHash_eq h0 hlen s TEMP_FILE_NAME_SIZE
  have htake : (SkeinUbi.skein s [] (TEMP_FILE_NAME_SIZE * 8) target_file ++ [0]).take TEMP_FILE_NAME_SIZE =
      SkeinUbi.skein s [] 80 target_file := List.take_left' hlength
  have hzero : (0 : Byte) ∉ hexDigits (SkeinUbi.skein s [] 80 target_file) := fun h =>
    absurd (mem_hexDigits h) (by decide)
  rw [tempFileName, hhash, binToHex_eq (by decide) (by rw [List.length_append, hlength]; exact Nat.le_succ _), htake,
    Option.map_some, cString_append_zero hzero]

/-- **The temp file.** Its name is the first eighty bits of the hash of the
target's name, in twenty hex digits. Two targets have it in common exactly if
their hashes collide, and no target but one that is twenty hex digits itself is
its own temp file. -/
theorem temp_file_name_spec (s : SkeinSize) {target_file : Path} (h0 : (0 : Byte) ∉ target_file)
    (hlen : target_file.length < 2 ^ 64) :
    ∃ temp_file_name, tempFileName s target_file = some temp_file_name ∧
      fromHex temp_file_name = SkeinUbi.skein s [] 80 target_file ∧
      temp_file_name.length = 20 ∧ (∀ c ∈ temp_file_name, c ∈ hex_lookup) ∧
      (∀ target_file' : Path, (0 : Byte) ∉ target_file' → target_file'.length < 2 ^ 64 →
        (tempFileName s target_file' = some temp_file_name ↔
          SkeinUbi.skein s [] 80 target_file' = SkeinUbi.skein s [] 80 target_file)) ∧
      (¬ (target_file.length = 20 ∧ ∀ c ∈ target_file, c ∈ hex_lookup) → target_file ≠ temp_file_name) := by
  have htwenty : (hexDigits (SkeinUbi.skein s [] 80 target_file)).length = 20 := by
    rw [length_hexDigits]
    exact congrArg (2 * ·) (skeinHash_eq h0 hlen s TEMP_FILE_NAME_SIZE).2
  refine ⟨_, tempFileName_eq h0 hlen s, fromHex_hexDigits _, htwenty, fun c => mem_hexDigits, ?_, ?_⟩
  · intro target_file' h0' hlen'
    rw [tempFileName_eq h0' hlen' s]
    constructor
    · intro h
      have hread := congrArg fromHex (Option.some.inj h)
      rwa [fromHex_hexDigits, fromHex_hexDigits] at hread
    · intro h
      rw [h]
  · intro hother heq
    refine hother ⟨(congrArg List.length heq).trans htwenty, fun c hc => ?_⟩
    rw [heq] at hc
    exact mem_hexDigits hc

theorem temp_file_name_spec_sample : ∃ temp_file_name, tempFileName .Skein256 [97] = some temp_file_name ∧
    [97] ≠ temp_file_name := by
  obtain ⟨name, hname, -, -, -, -, hne⟩ :=
    @temp_file_name_spec .Skein256 [97] (by decide) (by decide)
  exact ⟨name, hname, hne (by decide)⟩

end TempName

end Threefizer
