/-
# Scrypt as it is defined

The Salsa20/8 core by quarter rounds on columns and rows, `BlockMix` by the
recursion on its blocks, `ROMix` with the table `V` of iterates and the
remainder modulo `N`. The source writes out the 32 operations of a double
round, updates an array in place, fills `V` in a loop, and takes
`j = integerify(X) & (N - 1)` of the first eight bytes of a block of 64. It
computes the same (`salsa20_8_eq`, `blockmix_salsa8_eq`, `smix_eq_ROMix`,
`stretched_eq_scrypt`).
-/
import Threefizer.Scrypt

namespace Threefizer

open Words

namespace Scrypt

/-! ### The Salsa20/8 core -/

/-- The quarter round on four words. -/
def quarterround (y0 y1 y2 y3 : UInt32) : UInt32 × UInt32 × UInt32 × UInt32 :=
  let z1 := y1 ^^^ R (y0 + y3) 7
  let z2 := y2 ^^^ R (z1 + y0) 9
  let z3 := y3 ^^^ R (z2 + z1) 13
  let z0 := y0 ^^^ R (z3 + z2) 18
  (z0, z1, z2, z3)

/-- The quarter round on four of the words. -/
def quarterAt (x : List UInt32) : ℕ × ℕ × ℕ × ℕ → List UInt32
  | (i0, i1, i2, i3) =>
    let (z0, z1, z2, z3) := quarterround (x.getD i0 0) (x.getD i1 0) (x.getD i2 0) (x.getD i3 0)
    (((x.set i0 z0).set i1 z1).set i2 z2).set i3 z3

/-- The columns, each from its diagonal element down. -/
def columns : List (ℕ × ℕ × ℕ × ℕ) := [(0, 4, 8, 12), (5, 9, 13, 1), (10, 14, 2, 6), (15, 3, 7, 11)]

/-- The rows, each from its diagonal element on. -/
def rows : List (ℕ × ℕ × ℕ × ℕ) := [(0, 1, 2, 3), (5, 6, 7, 4), (10, 11, 8, 9), (15, 12, 13, 14)]

/-- The quarter rounds of the columns, then those of the rows. -/
def doubleround (x : List UInt32) : List UInt32 := (columns ++ rows).foldl quarterAt x

/-- The Salsa20/8 core on a block of 64 bytes. -/
def Salsa20_8 (B : List Byte) : List Byte :=
  let x := (List.range 16).map (le32dec B)
  (List.zipWith (· + ·) x (doubleround^[4] x)).flatMap le32enc

/-- The four operations of the source that make a quarter round. -/
def quarterOps : ℕ × ℕ × ℕ × ℕ → List (ℕ × ℕ × ℕ × UInt32)
  | (i0, i1, i2, i3) => [(i1, i0, i3, 7), (i2, i1, i0, 9), (i3, i2, i1, 13), (i0, i3, i2, 18)]

/-- Four different places below `n`. -/
def Places (n : ℕ) : ℕ × ℕ × ℕ × ℕ → Prop
  | (i0, i1, i2, i3) => [i0, i1, i2, i3].Nodup ∧ ∀ i ∈ [i0, i1, i2, i3], i < n

instance (n : ℕ) : DecidablePred (Places n) := fun _ => inferInstanceAs (Decidable (_ ∧ _))

theorem getD_set_self {x : List UInt32} {i : ℕ} (h : i < x.length) (a : UInt32) : (x.set i a).getD i 0 = a := by
  rw [List.getD_eq_getElem?_getD, List.getElem?_set_self h]
  rfl

theorem getD_set_ne (x : List UInt32) {i j : ℕ} (h : i ≠ j) (a : UInt32) : (x.set i a).getD j 0 = x.getD j 0 := by
  rw [List.getD_eq_getElem?_getD, List.getElem?_set_ne h, List.getD_eq_getElem?_getD]

@[simp] theorem length_quarterAt (x : List UInt32) (q : ℕ × ℕ × ℕ × ℕ) : (quarterAt x q).length = x.length := by
  simp [quarterAt]

theorem quarterOps_fold {x : List UInt32} {q : ℕ × ℕ × ℕ × ℕ} (hq : Places x.length q) :
    (quarterOps q).foldl quarter x = quarterAt x q := by
  obtain ⟨i0, i1, i2, i3⟩ := q
  obtain ⟨hnd, hlt⟩ := hq
  simp only [List.nodup_cons, List.mem_cons, List.not_mem_nil, or_false, not_or, not_false_eq_true,
    List.nodup_nil, and_true] at hnd
  obtain ⟨⟨h01, h02, h03⟩, ⟨h12, h13⟩, h23⟩ := hnd
  simp only [List.forall_mem_cons, List.not_mem_nil, false_imp_iff, implies_true, and_true] at hlt
  obtain ⟨h0, h1, h2, h3⟩ := hlt
  simp only [quarterOps, List.foldl_cons, List.foldl_nil, quarter, quarterAt, quarterround]
  simp (disch := simp [*, Ne.symm]) only [getD_set_self, getD_set_ne]
  -- the source writes the first word last
  rw [List.set_comm _ _ (Ne.symm h03), List.set_comm _ _ (Ne.symm h02), List.set_comm _ _ (Ne.symm h01)]

theorem quarterOps_foldl : ∀ {qs : List (ℕ × ℕ × ℕ × ℕ)} {x : List UInt32}, (∀ q ∈ qs, Places x.length q) →
    (qs.flatMap quarterOps).foldl quarter x = qs.foldl quarterAt x ∧ (qs.foldl quarterAt x).length = x.length
  | [], _, _ => ⟨rfl, rfl⟩
  | q :: qs, x, h => by
    have ih := @quarterOps_foldl qs (quarterAt x q) fun q' hq' => by
      rw [length_quarterAt]
      exact h q' (List.mem_cons_of_mem _ hq')
    rw [List.flatMap_cons, List.foldl_append, quarterOps_fold (h q List.mem_cons_self), List.foldl_cons]
    exact ⟨ih.1, ih.2.trans (length_quarterAt x q)⟩

theorem doubleRound_eq : doubleRound = (columns ++ rows).flatMap quarterOps := rfl

/-- The operations of a double round are the quarter rounds, four by four. -/
theorem doubleRound_fold {x : List UInt32} (hx : x.length = 16) :
    doubleRound.foldl quarter x = doubleround x ∧ (doubleround x).length = 16 := by
  have hplaces : ∀ q ∈ columns ++ rows, Places x.length q := by
    rw [hx]
    decide
  have h := quarterOps_foldl hplaces
  rw [doubleRound_eq]
  exact ⟨h.1, h.2.trans hx⟩

theorem doubleRounds {x : List UInt32} (hx : x.length = 16) : ∀ n : ℕ,
    (List.range n).foldl (fun x _ => doubleRound.foldl quarter x) x = doubleround^[n] x ∧
      (doubleround^[n] x).length = 16
  | 0 => ⟨rfl, hx⟩
  | n + 1 => by
    have ih := doubleRounds hx n
    have hround := doubleRound_fold ih.2
    rw [List.range_succ, List.foldl_append, ih.1, Function.iterate_succ_apply', List.foldl_cons, List.foldl_nil,
      hround.1]
    exact ⟨rfl, hround.2⟩

theorem length_words (B : List Byte) : ((List.range 16).map (le32dec B)).length = 16 := by
  rw [List.length_map, List.length_range]

/-- The core of the source is the Salsa20/8 core. -/
theorem salsa20_8_eq (B : List Byte) : salsa20_8 B = Salsa20_8 B := by
  have hrounds := (doubleRounds (length_words B) 4).1
  simp only [salsa20_8, Salsa20_8, hrounds]

theorem length_salsa20_8 (B : List Byte) : (salsa20_8 B).length = 64 := by
  have hlen := (doubleRounds (length_words B) 4).2
  have hfour : ∀ x : UInt32, (le32enc x).length = 4 := fun x => by rw [le32enc, List.length_map, List.length_range]
  rw [salsa20_8_eq, Salsa20_8, List.length_flatMap, List.map_congr_left fun x _ => hfour x, List.map_const',
    List.length_zipWith, hlen, length_words]
  rfl

/-! ### BlockMix -/

/-- The blocks `Y_i`, each made of the one before; in front of them is the last
block of `B`. -/
def mixY (B : List Byte) (r : ℕ) : ℕ → List Byte
  | 0 => blk B (2 * r - 1)
  | i + 1 => Salsa20_8 (blkxor (mixY B r i) (blk B i))

/-- The even blocks, then the odd ones. -/
def BlockMix (B : List Byte) (r : ℕ) : List Byte :=
  (List.range r).flatMap (fun i => mixY B r (i * 2 + 1)) ++ (List.range r).flatMap fun i => mixY B r (i * 2 + 2)

theorem mixY_succ (B : List Byte) (r i : ℕ) : mixY B r (i + 1) = salsa20_8 (blkxor (mixY B r i) (blk B i)) :=
  (salsa20_8_eq _).symm

theorem mixBlocks_getD (B : List Byte) (r : ℕ) : ∀ n i k, k < n →
    (mixBlocks B n i (mixY B r i)).getD k [] = mixY B r (i + k + 1)
  | 0, _, _, h => absurd h (Nat.not_lt_zero _)
  | n + 1, i, k, h => by
    rw [mixBlocks, ← mixY_succ]
    cases k with
    | zero => rw [List.getD_cons_zero, Nat.add_zero]
    | succ k =>
      rw [List.getD_cons_succ, mixBlocks_getD B r n (i + 1) k (by omega), show i + 1 + k = i + (k + 1) by omega]

theorem blockmix_salsa8_eq (B : List Byte) (r : ℕ) : blockmix_salsa8 B r = BlockMix B r := by
  have hY : ∀ k, k < 2 * r → (mixBlocks B (2 * r) 0 (blk B (2 * r - 1))).getD k [] = mixY B r (k + 1) := by
    intro k hk
    have h := mixBlocks_getD B r (2 * r) 0 k hk
    rwa [Nat.zero_add] at h
  have hmem : ∀ i ∈ List.range r, i * 2 < 2 * r ∧ i * 2 + 1 < 2 * r := by
    intro i hi
    have := List.mem_range.mp hi
    omega
  have heven := List.flatMap_congr fun i hi => hY _ (hmem i hi).1
  have hodd := List.flatMap_congr fun i hi => hY _ (hmem i hi).2
  rw [BlockMix, ← heven, ← hodd]
  rfl

/-! ### ROMix -/

/-- The last block as a number. -/
def Integerify (B : List Byte) (r : ℕ) : ℕ := value (blk B (2 * r - 1))

/-- `V` is the table of the first `N` iterates. -/
def ROMix (B : List Byte) (r N : ℕ) : List Byte :=
  let H := fun X => BlockMix X r
  let V := fun i => H^[i] B
  (fun X => H (blkxor X (V (Integerify X r % N))))^[N] (H^[N] B)

/-- The first loop fills the table. -/
theorem fillLoop_eq (r : ℕ) : ∀ (n : ℕ) (X : List Byte) (V : List (List Byte)),
    fillLoop r n X V =
      ((fun X => BlockMix X r)^[n] X, V ++ (List.range n).map fun i => (fun X => BlockMix X r)^[i] X)
  | 0, X, V => by simp [fillLoop]
  | n + 1, X, V => by
    rw [fillLoop, blockmix_salsa8_eq, fillLoop_eq r n, List.range_succ_eq_map, List.append_assoc]
    simp only [List.map_cons, List.map_map, List.singleton_append]
    rfl

theorem mixLoop_eq (r N : ℕ) (V : List (List Byte)) : ∀ (n : ℕ) (X : List Byte),
    mixLoop r N V n X =
      (fun X => BlockMix (blkxor X (V.getD (integerify X r &&& (N - 1)) [])) r)^[n] X
  | 0, _ => rfl
  | n + 1, X => by
    rw [mixLoop, mixLoop_eq r N V n, blockmix_salsa8_eq]
    rfl

theorem value_take_drop : ∀ (k : ℕ) (bs : List Byte), value bs = value (bs.take k) + 256 ^ k * value (bs.drop k)
  | 0, bs => by simp [value]
  | k + 1, [] => by simp [value]
  | k + 1, b :: bs => by
    rw [List.take_succ_cons, List.drop_succ_cons, value, value, value_take_drop k bs, pow_succ]
    ring

/-- Eight bytes are enough for the remainder modulo a power of two. -/
theorem integerify_and {N : ℕ} (hpow : N &&& (N - 1) = 0) (h0 : N ≠ 0) (h64 : N < 2 ^ 64) (B : List Byte) (r : ℕ) :
    integerify B r &&& (N - 1) = Integerify B r % N := by
  obtain ⟨k, rfl⟩ := Nat.ne_zero_and_sub_one_eq_zero_iff_isPowerOfTwo.mp ⟨h0, hpow⟩
  have hk : k ≤ 64 := by
    by_contra hk
    exact absurd h64 (Nat.not_lt.mpr (Nat.pow_le_pow_right (by decide) (by omega)))
  have hdvd : 2 ^ k ∣ 256 ^ 8 := by
    rw [show 256 ^ 8 = 2 ^ 64 by norm_num]
    exact pow_dvd_pow 2 hk
  rw [Nat.and_two_pow_sub_one_eq_mod, Integerify, integerify, value_take_drop 8 (blk B (2 * r - 1)),
    Nat.add_mod, Nat.mod_eq_zero_of_dvd (hdvd.mul_right _), Nat.add_zero, Nat.mod_mod]

/-- One round of the second loop, with the table as a function. -/
def romRound (r N : ℕ) (V : ℕ → List Byte) (X : List Byte) : List Byte :=
  BlockMix (blkxor X (V (integerify X r &&& (N - 1)))) r

theorem and_lt {N : ℕ} (h0 : N ≠ 0) (k : ℕ) : k &&& (N - 1) < N :=
  Nat.and_le_right.trans_lt (Nat.sub_lt (Nat.pos_of_ne_zero h0) Nat.one_pos)

/-- The two loops of `smix` in closed form. -/
theorem smix_eq {N : ℕ} (h0 : N ≠ 0) (B : List Byte) (r : ℕ) : smix B r N =
    (romRound r N fun k => (fun X => BlockMix X r)^[k] B)^[N] ((fun X => BlockMix X r)^[N] B) := by
  have hsmix : smix B r N = mixLoop r N (fillLoop r N B []).2 N (fillLoop r N B []).1 := rfl
  have hV : ∀ X, (List.map (fun i => (fun X => BlockMix X r)^[i] B) (List.range N)).getD
      (integerify X r &&& (N - 1)) [] = (fun X => BlockMix X r)^[integerify X r &&& (N - 1)] B := fun X => by
    rw [List.getD_eq_getElem?_getD, List.getElem?_map, List.getElem?_range (and_lt h0 _), Option.map_some,
      Option.getD_some]
  rw [hsmix, fillLoop_eq, mixLoop_eq]
  simp only [List.nil_append, hV]
  rfl

/-- `smix` is `ROMix` for a power of two. -/
theorem smix_eq_ROMix {N : ℕ} (hpow : N &&& (N - 1) = 0) (h0 : N ≠ 0) (h64 : N < 2 ^ 64) (B : List Byte) (r : ℕ) :
    smix B r N = ROMix B r N := by
  have hround : romRound r N (fun k => (fun X => BlockMix X r)^[k] B) =
      fun X => BlockMix (blkxor X ((fun X => BlockMix X r)^[Integerify X r % N] B)) r := by
    funext X
    rw [romRound, integerify_and hpow h0 h64]
  rw [smix_eq h0, hround]
  rfl

/-! ### The whole function -/

/-- `scrypt`: two passes of PBKDF2 around `p` times `ROMix`. -/
def scrypt (D : Derive) (passwd salt : List Byte) (N r p dkLen : ℕ) : List Byte :=
  let B := D.key passwd salt (p * (128 * r))
  D.key passwd ((List.range p).flatMap fun i => ROMix ((B.drop (i * (128 * r))).take (128 * r)) r N) dkLen

/-- What is derived from accepted parameters is `scrypt`. -/
theorem stretched_eq_scrypt {N r p buflen : ℕ} (hok : Accepted N r p buflen) (D : Derive) (passwd salt : List Byte) :
    stretched D passwd salt N r p buflen = scrypt D passwd salt N r p buflen := by
  obtain ⟨-, -, ⟨hpow, h0⟩, -, -, hN⟩ := hok
  have h64 : N < 2 ^ 64 := by
    have h1 : SIZE_MAX / 128 / r ≤ SIZE_MAX / 128 := Nat.div_le_self _ _
    have h2 : SIZE_MAX / 128 < 2 ^ 64 := by decide
    omega
  unfold stretched scrypt mixed
  simp only [smix_eq_ROMix hpow h0 h64, Nat.mul_assoc]

/-- **The source computes scrypt.** With parameters that pass the checks, sizes
that fit 32 bits and the memory it asks for, `kdf_scrypt` returns 0 and the
buffer holds what the definition says. -/
theorem kdf_scrypt_textbook {N r p : ℕ} {buf : List Byte} (hok : Accepted N r p buf.length)
    (h128 : 128 * r * p < 2 ^ 32) (h256 : 256 * r < 2 ^ 32) (D : Derive) (passwd salt : List Byte) :
    kdf_scrypt D passwd salt N r p ⟨true, true, true⟩ buf =
      some (0, scrypt D passwd salt N r p buf.length) := by
  rw [kdf_scrypt_accepted hok, if_pos ⟨rfl, rfl, rfl⟩, if_neg (by omega), stretched_eq_scrypt hok]

/-- The shipped parameters and a key of 64 bytes. -/
theorem kdf_scrypt_textbook_shipped :
    kdf_scrypt pbkdf2 [1, 2, 3] [4] SCRYPT_N SCRYPT_R SCRYPT_P ⟨true, true, true⟩ (List.replicate 64 0) =
      some (0, scrypt pbkdf2 [1, 2, 3] [4] SCRYPT_N SCRYPT_R SCRYPT_P 64) := by
  have hok : Accepted SCRYPT_N SCRYPT_R SCRYPT_P (List.replicate 64 (0 : Byte)).length := by
    rw [List.length_replicate]
    unfold Accepted
    decide
  have h := kdf_scrypt_textbook hok (by decide) (by decide) pbkdf2 [1, 2, 3] [4]
  rwa [List.length_replicate] at h

end Scrypt

end Threefizer
