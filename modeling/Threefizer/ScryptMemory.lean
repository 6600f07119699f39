/-
# Scrypt in its buffers

`scrypt.c` as it works on memory: `malloc` gives the buffers `B`, `XY` and `V`
with whatever was in them, their sizes are calculated in 32 bits, and
everything else is copying and mixing of bytes through pointers into the
three, and into the local array `X` of `blockmix_salsa8`.

The functions of `Threefizer/Scrypt.lean` are on lists. `kdf_scrypt_refines`
connects the two: with the same arguments both do the same, whatever the
buffers held. So every access is inside of the buffer it is meant for, except
where the sizes do not fit 32 bits, and there one is not.
-/
import Threefizer.Lib.Heap
import Threefizer.ScryptMix

namespace Threefizer

open Words Heap

namespace ScryptMemory

/-- The buffers: three that are allocated, and the local array. -/
inductive Buf
  | B | XY | V | X
  deriving DecidableEq, Repr

/-- What is in the buffers. -/
abbrev Memory := Mem Buf Byte

/-! ### The functions -/

/-- `blkcpy`. -/
def blkcpy (dest src : Ptr Buf) (len : ℕ) (m : Memory) : Option Memory := combine (fun _ s => s) dest src len m

/-- `blkxor`. -/
def blkxor (dest src : Ptr Buf) (len : ℕ) (m : Memory) : Option Memory := combine (· ^^^ ·) dest src len m

/-- `salsa20_8`: all words are read before the first is written. -/
def salsa20_8 (B : Ptr Buf) (m : Memory) : Option Memory :=
  (load m B 64).bind fun bytes => store B (Scrypt.salsa20_8 bytes) m

/-- The local array of `blockmix_salsa8`. -/
def localX : Ptr Buf := ⟨.X, 0⟩

/-- `X <-- H(X \xor B_i)` and `Y_i <-- X`. -/
def mixStep (B Y : Ptr Buf) (i : ℕ) (m : Memory) : Option Memory := do
  let m ← blkxor localX (B.add (i * 64)) 64 m
  let m ← salsa20_8 localX m
  blkcpy (Y.add (i * 64)) localX 64 m

/-- `blockmix_salsa8`. -/
def blockmix_salsa8 (B Y : Ptr Buf) (r : ℕ) (m : Memory) : Option Memory := do
  let m ← blkcpy localX (B.add ((2 * r - 1) * 64)) 64 m
  let m ← loop (mixStep B Y) (2 * r) m
  let m ← loop (fun i => blkcpy (B.add (i * 64)) (Y.add (i * 2 * 64)) 64) r m
  loop (fun i => blkcpy (B.add ((i + r) * 64)) (Y.add ((i * 2 + 1) * 64)) 64) r m

/-- `integerify`. -/
def integerify (B : Ptr Buf) (r : ℕ) (m : Memory) : Option ℕ :=
  (load m (B.add ((2 * r - 1) * 64)) 8).map value

/-- `V_i <-- X` and `X <-- H(X)`. -/
def fillStep (X Y V : Ptr Buf) (r i : ℕ) (m : Memory) : Option Memory := do
  let m ← blkcpy (V.add (i * (128 * r))) X (128 * r) m
  blockmix_salsa8 X Y r m

/-- `j <-- Integerify(X) mod N` and `X <-- H(X \xor V_j)`. -/
def romStep (X Y V : Ptr Buf) (r N _i : ℕ) (m : Memory) : Option Memory := do
  let k ← integerify X r m
  let j := k &&& (N - 1)
  let m ← blkxor X (V.add (j * (128 * r))) (128 * r) m
  blockmix_salsa8 X Y r m

/-- `smix`. -/
def smix (B : Ptr Buf) (r N : ℕ) (V XY : Ptr Buf) (m : Memory) : Option Memory := do
  let X := XY
  let Y := XY.add (128 * r)
  let m ← blkcpy X B (128 * r) m
  let m ← loop (fillStep X Y V r) N m
  let m ← loop (romStep X Y V r N) N m
  blkcpy B X (128 * r) m

/-- The sizes of the buffers; 32-bit arithmetic in all but the last factor. -/
def size (r N p : ℕ) : Buf → ℕ
  | .B => 128 * r * p % 2 ^ 32
  | .XY => 256 * r % 2 ^ 32
  | .V => (128 * r % 2 ^ 32) * N % 2 ^ 64
  | .X => 64

/-- The buffers after `malloc`, with whatever they hold. -/
def malloc (garbage : Ptr Buf → Byte) (r N p : ℕ) : Memory := fun q =>
  if q.offset < size r N p q.block then some (garbage q) else none

/-- `kdf_scrypt` once the parameters are checked and the buffers allocated. -/
def derive (D : Scrypt.Derive) (passwd salt : List Byte) (r N p buflen : ℕ) (m : Memory) : Option (List Byte) := do
  let len := p * 128 * r % 2 ^ 32
  let m ← store ⟨.B, 0⟩ (D.key passwd salt len) m
  let m ← loop (fun i => smix ⟨.B, i * 128 * r % 2 ^ 32⟩ r N ⟨.V, 0⟩ ⟨.XY, 0⟩) p m
  let B ← load m ⟨.B, 0⟩ len
  return D.key passwd B buflen

/-- `kdf_scrypt`: the code that is returned and what is in `buf` then; none for
a division by zero or an access outside of a buffer. -/
def kdf_scrypt (garbage : Ptr Buf → Byte) (D : Scrypt.Derive) (passwd salt : List Byte) (N r p : ℕ)
    (a : Scrypt.Allocations) (buf : List Byte) : Option (ℤ × List Byte) :=
  if buf.length > (2 ^ 32 - 1) * 32 then some (Scrypt.INTEGER_OVERFLOW, buf)
  else if r * p ≥ 2 ^ 30 then some (Scrypt.INTEGER_OVERFLOW, buf)
  else if N &&& (N - 1) ≠ 0 ∨ N = 0 then some (Scrypt.SCRYPT_INVALID_VALUE, buf)
  else if p = 0 then none
  else if r > Scrypt.SIZE_MAX / 128 / p then some (Error.MEMORY_ALLOCATION_FAIL.code, buf)
  else if r = 0 then none
  else if N > Scrypt.SIZE_MAX / 128 / r then some (Error.MEMORY_ALLOCATION_FAIL.code, buf)
  else if a.B = false then some (0, buf)
  else if a.XY = false then some (0, buf)
  else if a.V = false then some (0, buf)
  else (derive D passwd salt r N p buf.length (malloc garbage r N p)).map fun key => (0, key)

/-! ### Copying and mixing -/

section Blocks

variable {m : Memory} {p q : Ptr Buf} {xs ys : List Byte} {n : ℕ}

theorem zipWith_snd : ∀ {xs ys : List Byte}, xs.length = ys.length → List.zipWith (fun _ s => s) xs ys = ys
  | [], [], _ => rfl
  | _ :: _, _ :: _, h => by rw [List.zipWith_cons_cons, zipWith_snd (Nat.succ.inj h)]

theorem blkcpy_at (hroom : Room m p n) (hsrc : At m q xs) (hn : xs.length = n)
    (hdisj : Disjoint (region p n) (region q n)) :
    ∃ m', blkcpy p q n m = some m' ∧ At m' p xs ∧ Only (region p n) m m' := by
  obtain ⟨ds, hlen, hds⟩ := hroom.exists_at
  obtain ⟨m', hm', hat, honly⟩ := combine_at (f := fun _ s => s) hds hsrc (hlen.trans hn.symm) (by rwa [hlen, hn])
  rw [zipWith_snd (hlen.trans hn.symm)] at hat
  rw [hlen] at hm' honly
  exact ⟨m', hm', hat, honly⟩

theorem blkxor_at (hdest : At m p xs) (hsrc : At m q ys) (hx : xs.length = n) (hy : ys.length = n)
    (hdisj : Disjoint (region p n) (region q n)) :
    ∃ m', blkxor p q n m = some m' ∧ At m' p (Scrypt.blkxor xs ys) ∧ Only (region p n) m m' := by
  subst hx
  exact combine_at hdest hsrc hy.symm (by rwa [hy])

theorem length_blkxor {n : ℕ} {xs ys : List Byte} (hx : xs.length = n) (hy : ys.length = n) :
    (Scrypt.blkxor xs ys).length = n := by
  rw [Scrypt.blkxor, List.length_zipWith, hx, hy]
  exact Nat.min_self _

theorem salsa20_8_at (hat : At m p xs) (hx : xs.length = 64) :
    ∃ m', salsa20_8 p m = some m' ∧ At m' p (Scrypt.salsa20_8 xs) ∧ Only (region p 64) m m' := by
  have hlen := Scrypt.length_salsa20_8 xs
  obtain ⟨m', hm', hat', honly⟩ := store_at (show Room m p (Scrypt.salsa20_8 xs).length by
    rw [hlen, ← hx]
    exact hat.room)
  rw [hlen] at honly
  refine ⟨m', ?_, hat', honly⟩
  rw [salsa20_8, ← hx, load_at hat, Option.bind_some]
  exact hm'

end Blocks

/-! ### Nothing is allocated -/

theorem salsa20_8_shape (B : Ptr Buf) : KeepsShape (salsa20_8 B) := KeepsShape.read _ fun _ => store_shape _ _

theorem mixStep_shape (B Y : Ptr Buf) (i : ℕ) : KeepsShape (mixStep B Y i) :=
  (combine_shape _ _ _ _).bind ((salsa20_8_shape _).bind (combine_shape _ _ _ _))

theorem blockmix_shape (B Y : Ptr Buf) (r : ℕ) : KeepsShape (blockmix_salsa8 B Y r) :=
  (combine_shape _ _ _ _).bind ((KeepsShape.loop (mixStep_shape B Y) _).bind
    ((KeepsShape.loop (fun _ => combine_shape _ _ _ _) _).bind (KeepsShape.loop (fun _ => combine_shape _ _ _ _) _)))

theorem fillStep_shape (X Y V : Ptr Buf) (r i : ℕ) : KeepsShape (fillStep X Y V r i) :=
  (combine_shape _ _ _ _).bind (blockmix_shape _ _ _)

theorem romStep_shape (X Y V : Ptr Buf) (r N i : ℕ) : KeepsShape (romStep X Y V r N i) :=
  KeepsShape.read _ fun _ => (combine_shape _ _ _ _).bind (blockmix_shape _ _ _)

theorem smix_shape (B : Ptr Buf) (r N : ℕ) (V XY : Ptr Buf) : KeepsShape (smix B r N V XY) :=
  (combine_shape _ _ _ _).bind ((KeepsShape.loop (fillStep_shape _ _ _ _) _).bind
    ((KeepsShape.loop (romStep_shape _ _ _ _ _) _).bind (combine_shape _ _ _ _)))

/-! ### BlockMix -/

section BlockMix

open Scrypt (mixY BlockMix blk)

variable {m : Memory} {B Y : Ptr Buf} {bs : List Byte} {r : ℕ}

theorem length_blk {i : ℕ} (hi : (i + 1) * 64 ≤ bs.length) : (blk bs i).length = 64 := by
  rw [blk, List.length_take, List.length_drop]
  omega

theorem at_blk (hB : At m B bs) (i : ℕ) : At m (B.add (i * 64)) (blk bs i) := (hB.drop (i * 64)).take 64

theorem length_mixY (hbs : bs.length = 128 * r) (hr : 0 < r) : ∀ i, (mixY bs r i).length = 64
  | 0 => length_blk (by omega)
  | i + 1 => by rw [Scrypt.mixY_succ, Scrypt.length_salsa20_8]

/-- The block and the room for `Y` do not overlap, and neither is the local array. -/
structure Apart (B Y : Ptr Buf) (r : ℕ) : Prop where
  dest : B.block ≠ .X
  temp : Y.block ≠ .X
  disjoint : Disjoint (region B (128 * r)) (region Y (128 * r))

/-- One more block of `Y`. -/
theorem mixStep_at (h : Apart B Y r) (hbs : bs.length = 128 * r) (hr : 0 < r) {i : ℕ} (hi : i < 2 * r)
    (hB : At m B bs) (hY : Room m Y (128 * r)) (hX : At m localX (mixY bs r i)) :
    ∃ m', mixStep B Y i m = some m' ∧ At m' localX (mixY bs r (i + 1)) ∧
      At m' (Y.add (i * 64)) (mixY bs r (i + 1)) ∧ Only (region (Y.add (i * 64)) 64 ∪ region localX 64) m m' := by
  have hxlen := length_mixY hbs hr i
  have hylen := length_mixY hbs hr (i + 1)
  have hblk : (blk bs i).length = 64 := length_blk (by omega)
  have htemp : Disjoint (region (Y.add (i * 64)) 64) (region localX 64) := disjoint_of_block h.temp
  obtain ⟨m₁, hm₁, hat₁, ho₁⟩ := blkxor_at hX (at_blk hB i) hxlen hblk (disjoint_of_block h.dest.symm)
  obtain ⟨m₂, hm₂, hat₂, ho₂⟩ := salsa20_8_at hat₁ (length_blkxor hxlen hblk)
  rw [← Scrypt.mixY_succ] at hat₂
  have hroom : Room m₂ (Y.add (i * 64)) 64 :=
    ((combine_shape _ _ _ _ m m₁ hm₁).trans (salsa20_8_shape _ m₁ m₂ hm₂)).room (hY.part (by omega))
  obtain ⟨m₃, hm₃, hat₃, ho₃⟩ := blkcpy_at hroom hat₂ hylen htemp
  refine ⟨m₃, ?_, hat₂.only ho₃ ?_, hat₃, ?_⟩
  · show (blkxor localX (B.add (i * 64)) 64 m).bind _ = _
    rw [hm₁, Option.bind_some]
    show (salsa20_8 localX m₁).bind _ = _
    rw [hm₂, Option.bind_some]
    exact hm₃
  · rw [hylen]
    exact htemp.symm
  · exact ((ho₁.trans ho₂).mono Set.subset_union_right).trans (ho₃.mono Set.subset_union_left)

/-- The first loop: all blocks of `Y`. -/
theorem mixLoop_at (h : Apart B Y r) (hbs : bs.length = 128 * r) (hr : 0 < r)
    (hB : At m B bs) (hY : Room m Y (128 * r)) (hX : At m localX (mixY bs r 0)) :
    ∃ m', loop (mixStep B Y) (2 * r) m = some m' ∧ (∀ k, k < 2 * r → At m' (Y.add (k * 64)) (mixY bs r (k + 1))) ∧
      Only (region Y (128 * r) ∪ region localX 64) m m' := by
  obtain ⟨m', hm', -, hat, honly, -⟩ := loop_invariant (f := mixStep B Y) (s := m)
    (I := fun i m' => At m' localX (mixY bs r i) ∧ (∀ k, k < i → At m' (Y.add (k * 64)) (mixY bs r (k + 1))) ∧
      Only (region Y (128 * r) ∪ region localX 64) m m' ∧ Shape m m')
    ⟨hX, fun _ hk => absurd hk (Nat.not_lt_zero _), Only.refl _ _, Shape.refl _⟩ (2 * r)
    fun i m₁ hi ⟨hx, hy, honly, hshape⟩ => by
      have hB₁ : At m₁ B bs := hB.only honly (by
        rw [hbs]
        exact Set.disjoint_union_right.mpr ⟨h.disjoint, disjoint_of_block h.dest⟩)
      obtain ⟨m₂, hm₂, hx₂, hy₂, ho₂⟩ := mixStep_at h hbs hr hi hB₁ (hshape.room hY) hx
      refine ⟨m₂, hm₂, hx₂, fun k hk => ?_, honly.trans (ho₂.mono ?_), hshape.trans (mixStep_shape _ _ _ _ _ hm₂)⟩
      · by_cases hki : k = i
        · rw [hki]
          exact hy₂
        · refine (hy k (by omega)).only ho₂ (Set.disjoint_union_right.mpr ⟨?_, disjoint_of_block h.temp⟩)
          rw [length_mixY hbs hr]
          exact disjoint_of_le (by omega)
      · exact Set.union_subset_union_left _ (region_subset (by omega))
  exact ⟨m', hm', hat, honly⟩

/-- Copying `n` blocks of `Y` to the blocks of `B` from the number `c` on. -/
theorem gather_at {g : ℕ → ℕ} {f : ℕ → List Byte} {n c : ℕ} (hf : ∀ i, (f i).length = 64)
    (hY : ∀ i, i < n → At m (Y.add (g i * 64)) (f i)) (hB : Room m (B.add (c * 64)) (n * 64))
    (hdisj : ∀ i, i < n → Disjoint (region (B.add (c * 64)) (n * 64)) (region (Y.add (g i * 64)) 64)) :
    ∃ m', loop (fun i => blkcpy (B.add ((i + c) * 64)) (Y.add (g i * 64)) 64) n m = some m' ∧
      (∀ k, k < n → At m' (B.add ((k + c) * 64)) (f k)) ∧ Only (region (B.add (c * 64)) (n * 64)) m m' := by
  have hpart : ∀ i, B.add ((i + c) * 64) = (B.add (c * 64)).add (i * 64) := fun i => by
    rw [Ptr.add_add, Nat.add_mul, Nat.add_comm]
  have hsub : ∀ i, i < n → region (B.add ((i + c) * 64)) 64 ⊆ region (B.add (c * 64)) (n * 64) := fun i hi => by
    rw [hpart]
    exact region_subset (by omega)
  obtain ⟨m', hm', hat, honly, -⟩ := loop_invariant (s := m)
    (f := fun i => blkcpy (B.add ((i + c) * 64)) (Y.add (g i * 64)) 64)
    (I := fun i m' => (∀ k, k < i → At m' (B.add ((k + c) * 64)) (f k)) ∧
      Only (region (B.add (c * 64)) (n * 64)) m m' ∧ Shape m m')
    ⟨fun _ hk => absurd hk (Nat.not_lt_zero _), Only.refl _ _, Shape.refl _⟩ n
    fun i m₁ hi ⟨hb, honly, hshape⟩ => by
      have hsrc : At m₁ (Y.add (g i * 64)) (f i) := (hY i hi).only honly (by
        rw [hf]
        exact (hdisj i hi).symm)
      have hroom : Room m₁ (B.add ((i + c) * 64)) 64 := by
        rw [hpart]
        exact hshape.room (hB.part (by omega))
      obtain ⟨m₂, hm₂, hat₂, ho₂⟩ := blkcpy_at hroom hsrc (hf i) ((hdisj i hi).mono_left (hsub i hi))
      refine ⟨m₂, hm₂, fun k hk => ?_, honly.trans (ho₂.mono (hsub i hi)),
        hshape.trans (combine_shape _ _ _ _ _ _ hm₂)⟩
      by_cases hki : k = i
      · rw [hki]
        exact hat₂
      · refine (hb k (by omega)).only ho₂ ?_
        rw [hf]
        exact disjoint_of_le (by omega)
  exact ⟨m', hm', hat, honly⟩

/-- `blockmix_salsa8` mixes the block in its place. -/
theorem blockmix_at (h : Apart B Y r) (hbs : bs.length = 128 * r) (hr : 0 < r) (hB : At m B bs)
    (hY : Room m Y (128 * r)) (hX : Room m localX 64) :
    ∃ m', blockmix_salsa8 B Y r m = some m' ∧ At m' B (BlockMix bs r) ∧
      Only (region B (128 * r) ∪ (region Y (128 * r) ∪ region localX 64)) m m' := by
  have hlen := length_mixY hbs hr
  obtain ⟨m₁, hm₁, hat₁, ho₁⟩ := blkcpy_at hX (at_blk hB (2 * r - 1)) (hlen 0) (disjoint_of_block h.dest.symm)
  have hs₁ := combine_shape _ _ _ _ _ _ hm₁
  have hB₁ : At m₁ B bs := hB.only ho₁ (disjoint_of_block h.dest)
  obtain ⟨m₂, hm₂, hat₂, ho₂⟩ := mixLoop_at h hbs hr hB₁ (hs₁.room hY) hat₁
  have hs₂ := hs₁.trans (KeepsShape.loop (mixStep_shape B Y) _ _ _ hm₂)
  have hroom : Room m B (128 * r) := hbs ▸ hB.room
  have hsub : ∀ {c}, c ≤ r → region (B.add (c * 64)) (r * 64) ⊆ region B (128 * r) := fun hc =>
    region_subset (by omega)
  have hapart : ∀ {c i}, c ≤ r → i < 2 * r →
      Disjoint (region (B.add (c * 64)) (r * 64)) (region (Y.add (i * 64)) 64) := fun hc hi =>
    h.disjoint.mono (hsub hc) (region_subset (by omega))
  -- the even blocks to the first half
  obtain ⟨m₃, hm₃, hat₃, ho₃⟩ := gather_at (m := m₂) (B := B) (Y := Y) (n := r) (c := 0) (g := fun i => i * 2)
    (f := fun i => mixY bs r (i * 2 + 1)) (fun _ => hlen _) (fun i hi => hat₂ _ (by omega))
    (hs₂.room (hroom.part (by omega))) fun i hi => hapart (by omega) (by omega)
  have hs₃ := hs₂.trans (KeepsShape.loop (fun _ => combine_shape _ _ _ _) _ _ _ hm₃)
  -- the odd blocks to the second half
  obtain ⟨m₄, hm₄, hat₄, ho₄⟩ := gather_at (m := m₃) (B := B) (Y := Y) (n := r) (c := r) (g := fun i => i * 2 + 1)
    (f := fun i => mixY bs r (i * 2 + 2)) (fun _ => hlen _)
    (fun i hi => (hat₂ (i * 2 + 1) (by omega)).only ho₃ (by
      rw [hlen]
      exact (hapart (by omega) (by omega)).symm))
    (hs₃.room (hroom.part (by omega))) fun i hi => hapart le_rfl (by omega)
  refine ⟨m₄, ?_, ?_, ?_⟩
  · exact Option.bind_eq_some_iff.mpr ⟨m₁, hm₁, Option.bind_eq_some_iff.mpr ⟨m₂, hm₂,
      Option.bind_eq_some_iff.mpr ⟨m₃, hm₃, hm₄⟩⟩⟩
  · refine At.append (at_parts (fun _ _ => hlen _) fun i hi => (hat₃ i hi).only ho₄ ?_) ?_
    · rw [hlen]
      exact disjoint_of_le (by omega)
    · rw [length_flatMap_parts fun _ _ => hlen _]
      refine at_parts (fun _ _ => hlen _) fun i hi => ?_
      rw [Ptr.add_add, ← Nat.add_mul, Nat.add_comm]
      exact hat₄ i hi
  · have htemp := ho₂.mono (Set.subset_union_right (s := region B (128 * r)))
    have hfirst := ho₃.mono ((hsub (Nat.zero_le r)).trans (Set.subset_union_left
      (t := region Y (128 * r) ∪ region localX 64)))
    have hsecond := ho₄.mono ((hsub le_rfl).trans (Set.subset_union_left
      (t := region Y (128 * r) ∪ region localX 64)))
    have hlocal := ho₁.mono (Set.subset_union_right.trans (Set.subset_union_right (s := region B (128 * r))
      (t := region Y (128 * r) ∪ region localX 64)))
    exact ((hlocal.trans htemp).trans hfirst).trans hsecond

end BlockMix

/-! ### ROMix -/

section ROMix

open Scrypt (BlockMix romRound)

variable {m m' : Memory} {bs : List Byte} {r N : ℕ}

/-- The start of `XY` and of `V`. -/
def bufXY : Ptr Buf := ⟨.XY, 0⟩

def bufV : Ptr Buf := ⟨.V, 0⟩

/-- Everything but the buffer `B`. -/
def scratch : Set (Ptr Buf) := {q | q.block ≠ .B}

theorem region_scratch {p : Ptr Buf} (hp : p.block ≠ .B) (n : ℕ) : region p n ⊆ scratch := fun _ hq hB =>
  hp (hq.1.symm.trans hB)

/-- The room that `smix` needs. -/
structure Rooms (m : Memory) (r N : ℕ) : Prop where
  xy : Room m bufXY (256 * r)
  v : Room m bufV (N * (128 * r))
  x : Room m localX 64

theorem Rooms.shape (h : Rooms m r N) (hs : Shape m m') : Rooms m' r N :=
  ⟨hs.room h.xy, hs.room h.v, hs.room h.x⟩

theorem length_BlockMix (hbs : bs.length = 128 * r) (hr : 0 < r) : (BlockMix bs r).length = 128 * r := by
  rw [BlockMix, List.length_append, length_flatMap_parts fun _ _ => length_mixY hbs hr _,
    length_flatMap_parts fun _ _ => length_mixY hbs hr _]
  omega

theorem length_iterate {f : List Byte → List Byte} (hf : ∀ X, X.length = 128 * r → (f X).length = 128 * r)
    (hbs : bs.length = 128 * r) : ∀ n, (f^[n] bs).length = 128 * r
  | 0 => hbs
  | n + 1 => by
    rw [Function.iterate_succ_apply']
    exact hf _ (length_iterate hf hbs n)

/-- `X` is mixed in place; `V` is not touched. -/
theorem mixX_at (hR : Rooms m r N) (hr : 0 < r) (hbs : bs.length = 128 * r) (hX : At m bufXY bs) :
    ∃ m', blockmix_salsa8 bufXY (bufXY.add (128 * r)) r m = some m' ∧ At m' bufXY (BlockMix bs r) ∧
      Only (region bufXY (256 * r) ∪ region localX 64) m m' := by
  have hhalves : Disjoint (region (bufXY.add 0) (128 * r)) (region (bufXY.add (128 * r)) (128 * r)) :=
    disjoint_of_le (by omega)
  have hapart : Apart bufXY (bufXY.add (128 * r)) r := ⟨by decide, by show Buf.XY ≠ .X; decide, hhalves⟩
  obtain ⟨m', hm', hat, honly⟩ := blockmix_at hapart hbs hr hX (hR.xy.part (by omega)) hR.x
  refine ⟨m', hm', hat, honly.mono ?_⟩
  rw [← Set.union_assoc]
  exact Set.union_subset_union_left _ (Set.union_subset (region_mono (by omega)) (region_subset (by omega)))

/-- What mixing `X` leaves alone. -/
theorem mixed_disjoint {p : Ptr Buf} (hp : p.block ≠ .XY ∧ p.block ≠ .X) (n k : ℕ) :
    Disjoint (region p n) (region bufXY k ∪ region localX 64) :=
  Set.disjoint_union_right.mpr ⟨disjoint_of_block hp.1, disjoint_of_block hp.2⟩

theorem mixed_scratch (k : ℕ) : region bufXY k ∪ region localX 64 ⊆ scratch :=
  Set.union_subset (region_scratch (by decide) _) (region_scratch (by decide) _)

/-- The first loop fills the table. -/
theorem fillLoop_at (hR : Rooms m r N) (hr : 0 < r) (hbs : bs.length = 128 * r) (hX : At m bufXY bs) :
    ∃ m', loop (fillStep bufXY (bufXY.add (128 * r)) bufV r) N m = some m' ∧
      At m' bufXY ((fun X => BlockMix X r)^[N] bs) ∧
      (∀ k, k < N → At m' (bufV.add (k * (128 * r))) ((fun X => BlockMix X r)^[k] bs)) ∧ Only scratch m m' := by
  have hlen := length_iterate (f := fun X => BlockMix X r) (fun _ hX => length_BlockMix hX hr) hbs
  obtain ⟨m', hm', hat, hv, honly, -⟩ := loop_invariant (s := m)
    (f := fillStep bufXY (bufXY.add (128 * r)) bufV r)
    (I := fun i m' => At m' bufXY ((fun X => BlockMix X r)^[i] bs) ∧
      (∀ k, k < i → At m' (bufV.add (k * (128 * r))) ((fun X => BlockMix X r)^[k] bs)) ∧
      Only scratch m m' ∧ Shape m m')
    ⟨hX, fun _ hk => absurd hk (Nat.not_lt_zero _), Only.refl _ _, Shape.refl _⟩ N
    fun i m₁ hi ⟨hx, hv, honly, hshape⟩ => by
      have hR₁ := hR.shape hshape
      have hle : i * (128 * r) + 128 * r ≤ N * (128 * r) := by
        rw [← Nat.succ_mul]
        exact Nat.mul_le_mul_right _ hi
      obtain ⟨m₂, hm₂, hat₂, ho₂⟩ := blkcpy_at (hR₁.v.part hle) hx (hlen i)
        (disjoint_of_block (by show Buf.V ≠ .XY; decide))
      have hx₂ := hx.only ho₂ (disjoint_of_block (by show Buf.XY ≠ .V; decide))
      have hs₂ := combine_shape _ _ _ _ _ _ hm₂
      obtain ⟨m₃, hm₃, hat₃, ho₃⟩ := mixX_at (hR₁.shape hs₂) hr (hlen i) hx₂
      have hkept : ∀ k, Disjoint (region (bufV.add (k * (128 * r))) ((fun X => BlockMix X r)^[k] bs).length)
          (region bufXY (256 * r) ∪ region localX 64) := fun k =>
        mixed_disjoint (by show Buf.V ≠ .XY ∧ Buf.V ≠ .X; decide) _ _
      refine ⟨m₃, Option.bind_eq_some_iff.mpr ⟨m₂, hm₂, hm₃⟩, ?_, fun k hk => ?_, ?_,
        hshape.trans (hs₂.trans (blockmix_shape _ _ _ _ _ hm₃))⟩
      · rw [Function.iterate_succ_apply']
        exact hat₃
      · by_cases hki : k = i
        · subst hki
          exact hat₂.only ho₃ (hkept k)
        · refine At.only ((hv k (by omega)).only ho₂ ?_) ho₃ (hkept k)
          rw [hlen]
          refine disjoint_of_le ?_
          rw [← Nat.succ_mul]
          exact Nat.mul_le_mul_right _ (by omega)
      · exact (honly.trans (ho₂.mono (region_scratch (by show Buf.V ≠ .B; decide) _))).trans
          (ho₃.mono (mixed_scratch _))
  exact ⟨m', hm', hat, hv, honly⟩

theorem integerify_at (hr : 0 < r) (hbs : bs.length = 128 * r) (hX : At m bufXY bs) :
    integerify bufXY r m = some (Scrypt.integerify bs r) := by
  have hblk : (Scrypt.blk bs (2 * r - 1)).length = 64 := length_blk (by omega)
  rw [integerify, load_take (at_blk hX (2 * r - 1)) (by omega), Option.map_some]
  rfl

theorem length_romRound {V : ℕ → List Byte} (hr : 0 < r) (hV : ∀ k, (V k).length = 128 * r) {X : List Byte}
    (hX : X.length = 128 * r) : (romRound r N V X).length = 128 * r :=
  length_BlockMix (length_blkxor hX (hV _)) hr

theorem length_smix (hr : 0 < r) (hN : N ≠ 0) (hbs : bs.length = 128 * r) :
    (Scrypt.smix bs r N).length = 128 * r := by
  have hH := length_iterate (f := fun X => BlockMix X r) (fun _ hX => length_BlockMix hX hr) hbs
  rw [Scrypt.smix_eq hN]
  exact length_iterate (fun _ hX => length_romRound hr hH hX) (hH N) N

/-- The second loop looks up the table. -/
theorem romLoop_at {V : ℕ → List Byte} (hR : Rooms m r N) (hr : 0 < r) (hN : N ≠ 0) (hbs : bs.length = 128 * r)
    (hX : At m bufXY bs) (hVlen : ∀ k, (V k).length = 128 * r)
    (hV : ∀ k, k < N → At m (bufV.add (k * (128 * r))) (V k)) :
    ∃ m', loop (romStep bufXY (bufXY.add (128 * r)) bufV r N) N m = some m' ∧
      At m' bufXY ((romRound r N V)^[N] bs) ∧ Only scratch m m' := by
  have hlen := length_iterate (f := romRound r N V) (fun _ hX => length_romRound hr hVlen hX) hbs
  obtain ⟨m', hm', hat, -, honly, -⟩ := loop_invariant (s := m)
    (f := romStep bufXY (bufXY.add (128 * r)) bufV r N)
    (I := fun i m' => At m' bufXY ((romRound r N V)^[i] bs) ∧
      (∀ k, k < N → At m' (bufV.add (k * (128 * r))) (V k)) ∧ Only scratch m m' ∧ Shape m m')
    ⟨hX, hV, Only.refl _ _, Shape.refl _⟩ N
    fun i m₁ hi ⟨hx, hv, honly, hshape⟩ => by
      have hj := Scrypt.and_lt hN (Scrypt.integerify ((romRound r N V)^[i] bs) r)
      obtain ⟨m₂, hm₂, hat₂, ho₂⟩ := blkxor_at hx (hv _ hj) (hlen i) (hVlen _)
        (disjoint_of_block (by show Buf.XY ≠ .V; decide))
      have hs₂ := combine_shape _ _ _ _ _ _ hm₂
      obtain ⟨m₃, hm₃, hat₃, ho₃⟩ := mixX_at ((hR.shape hshape).shape hs₂) hr (length_blkxor (hlen i) (hVlen _)) hat₂
      refine ⟨m₃, ?_, ?_, fun k hk => ?_, ?_, hshape.trans (hs₂.trans (blockmix_shape _ _ _ _ _ hm₃))⟩
      · exact Option.bind_eq_some_iff.mpr ⟨_, integerify_at hr (hlen i) hx,
          Option.bind_eq_some_iff.mpr ⟨m₂, hm₂, hm₃⟩⟩
      · rw [Function.iterate_succ_apply']
        exact hat₃
      · exact ((hv k hk).only ho₂ (disjoint_of_block (by show Buf.V ≠ .XY; decide))).only ho₃
          (mixed_disjoint (by show Buf.V ≠ .XY ∧ Buf.V ≠ .X; decide) _ _)
      · exact (honly.trans (ho₂.mono (region_scratch (by decide) _))).trans (ho₃.mono (mixed_scratch _))
  exact ⟨m', hm', hat, honly⟩

/-- `smix` mixes a part of `B` in its place. -/
theorem smix_at {p : Ptr Buf} (hp : p.block = .B) (hR : Rooms m r N) (hr : 0 < r) (hN : N ≠ 0)
    (hbs : bs.length = 128 * r) (hB : At m p bs) :
    ∃ m', smix p r N bufV bufXY m = some m' ∧ At m' p (Scrypt.smix bs r N) ∧
      Only (region p (128 * r) ∪ scratch) m m' := by
  have hblocks : ∀ q : Ptr Buf, q.block ≠ .B → p.block ≠ q.block := fun q hq => by
    rw [hp]
    exact hq.symm
  have hXroom : Room m bufXY (128 * r) := fun i hi => hR.xy i (by omega)
  obtain ⟨m₁, hm₁, hat₁, ho₁⟩ := blkcpy_at hXroom hB hbs (disjoint_of_block (hblocks bufXY (by decide)).symm)
  have hs₁ := combine_shape _ _ _ _ _ _ hm₁
  obtain ⟨m₂, hm₂, hat₂, hv₂, ho₂⟩ := fillLoop_at (hR.shape hs₁) hr hbs hat₁
  have hs₂ := hs₁.trans (KeepsShape.loop (fillStep_shape _ _ _ _) _ _ _ hm₂)
  have hlen := length_iterate (f := fun X => BlockMix X r) (fun _ hX => length_BlockMix hX hr) hbs
  obtain ⟨m₃, hm₃, hat₃, ho₃⟩ := romLoop_at (hR.shape hs₂) hr hN (hlen N) hat₂ hlen hv₂
  have hs₃ := hs₂.trans (KeepsShape.loop (romStep_shape _ _ _ _ _) _ _ _ hm₃)
  rw [← Scrypt.smix_eq hN] at hat₃
  obtain ⟨m₄, hm₄, hat₄, ho₄⟩ := blkcpy_at (hs₃.room (hbs ▸ hB.room)) hat₃ (length_smix hr hN hbs)
    (disjoint_of_block (hblocks bufXY (by decide)))
  refine ⟨m₄, ?_, hat₄, ?_⟩
  · exact Option.bind_eq_some_iff.mpr ⟨m₁, hm₁, Option.bind_eq_some_iff.mpr ⟨m₂, hm₂,
      Option.bind_eq_some_iff.mpr ⟨m₃, hm₃, hm₄⟩⟩⟩
  · have hin := (ho₁.mono (region_scratch (by decide) _)).trans (ho₂.trans ho₃)
    exact (hin.mono Set.subset_union_right).trans (ho₄.mono Set.subset_union_left)

end ROMix

/-! ### `kdf_scrypt` -/

section Derive

variable {g : Ptr Buf → Byte} {D : Scrypt.Derive} {passwd salt : List Byte} {N r p buflen : ℕ} {m : Memory}

/-- The buffer `B`, from the offset `n` on. -/
def bufB (n : ℕ) : Ptr Buf := ⟨.B, n⟩

theorem malloc_room {b : Buf} {n : ℕ} (h : n ≤ size r N p b) : Room (malloc g r N p) ⟨b, 0⟩ n := fun i hi => by
  have hlt : 0 + i < size r N p b := by omega
  rw [malloc, Ptr.add, if_pos hlt]
  rfl

theorem malloc_none {b : Buf} {k : ℕ} (h : size r N p b ≤ k) : malloc g r N p ⟨b, k⟩ = none :=
  if_neg (Nat.not_lt.mpr h)

/-- The part of `B` that one call of `smix` works on. -/
def part (B : List Byte) (r i : ℕ) : List Byte := (B.drop (i * 128 * r)).take (128 * r)

theorem length_part {B : List Byte} (hlen : B.length = p * 128 * r) {i : ℕ} (hi : i < p) :
    (part B r i).length = 128 * r := by
  have hle : (i + 1) * (128 * r) ≤ p * (128 * r) := Nat.mul_le_mul_right _ hi
  rw [part, List.length_take, List.length_drop, hlen, Nat.mul_assoc, Nat.mul_assoc]
  rw [Nat.succ_mul] at hle
  omega

/-- All `p` parts of `B` are mixed. -/
theorem mixParts_at {B : List Byte} (hR : Rooms m r N) (hr : 0 < r) (hN : N ≠ 0) (hlen : B.length = p * 128 * r)
    (h32 : p * 128 * r < 2 ^ 32) (hB : At m (bufB 0) B) :
    ∃ m', loop (fun i => smix (bufB (i * 128 * r % 2 ^ 32)) r N bufV bufXY) p m = some m' ∧
      At m' (bufB 0) ((List.range p).flatMap fun i => Scrypt.smix (part B r i) r N) := by
  have hptr : ∀ i, i < p → bufB (i * 128 * r % 2 ^ 32) = (bufB 0).add (i * (128 * r)) := fun i hi => by
    have hle : i * (128 * r) ≤ p * (128 * r) := Nat.mul_le_mul_right _ hi.le
    rw [Nat.mul_assoc] at h32 ⊢
    rw [Nat.mod_eq_of_lt (by omega), bufB, bufB, Ptr.add, Nat.zero_add]
  have hpart : ∀ i, At m ((bufB 0).add (i * (128 * r))) (part B r i) := fun i => by
    rw [part, ← Nat.mul_assoc]
    exact (hB.drop _).take _
  have hmixed : ∀ i, i < p → (Scrypt.smix (part B r i) r N).length = 128 * r := fun i hi =>
    length_smix hr hN (length_part hlen hi)
  have hapart : ∀ {i k}, i ≠ k → Disjoint (region ((bufB 0).add (k * (128 * r))) (128 * r))
      (region ((bufB 0).add (i * (128 * r))) (128 * r) ∪ scratch) := fun {i k} hik => by
    refine Set.disjoint_union_right.mpr ⟨?_, Set.disjoint_left.mpr fun q hq hs => hs hq.1⟩
    rcases Nat.lt_or_gt_of_ne hik with h | h
    · have hle : (i + 1) * (128 * r) ≤ k * (128 * r) := Nat.mul_le_mul_right _ h
      rw [Nat.succ_mul] at hle
      exact (disjoint_of_le hle).symm
    · have hle : (k + 1) * (128 * r) ≤ i * (128 * r) := Nat.mul_le_mul_right _ h
      rw [Nat.succ_mul] at hle
      exact disjoint_of_le hle
  obtain ⟨m', hm', hat, -, -⟩ := loop_invariant (s := m)
    (f := fun i => smix (bufB (i * 128 * r % 2 ^ 32)) r N bufV bufXY)
    (I := fun i m' => (∀ k, k < i → At m' ((bufB 0).add (k * (128 * r))) (Scrypt.smix (part B r k) r N)) ∧
      (∀ k, i ≤ k → k < p → At m' ((bufB 0).add (k * (128 * r))) (part B r k)) ∧ Shape m m')
    ⟨fun _ hk => absurd hk (Nat.not_lt_zero _), fun k _ _ => hpart k, Shape.refl _⟩ p
    fun i m₁ hi h => by
      obtain ⟨hdone, hleft, hshape⟩ := h
      obtain ⟨m₂, hm₂, hat₂, ho₂⟩ := smix_at (p := (bufB 0).add (i * (128 * r))) rfl (hR.shape hshape) hr hN
        (length_part hlen hi) (hleft i le_rfl hi)
      refine ⟨m₂, by rw [hptr i hi]; exact hm₂, fun k hk => ?_, fun k hk hkp => ?_,
        hshape.trans (smix_shape _ _ _ _ _ _ _ hm₂)⟩
      · by_cases hki : k = i
        · rw [hki]
          exact hat₂
        · refine (hdone k (by omega)).only ho₂ ?_
          rw [hmixed k (by omega)]
          exact hapart (Ne.symm hki)
      · refine (hleft k (by omega) hkp).only ho₂ ?_
        rw [length_part hlen hkp]
        exact hapart (by omega)
  exact ⟨m', hm', at_parts hmixed hat⟩

/-- Enough is allocated if the sizes fit 32 bits. -/
theorem malloc_rooms (hr : r ≠ 0) (hN : N ≤ Scrypt.SIZE_MAX / 128 / r) (h256 : 256 * r < 2 ^ 32) :
    Rooms (malloc g r N p) r N := by
  have h64 : 128 * r * N < 2 ^ 64 := by
    rw [Nat.div_div_eq_div_mul, Nat.le_div_iff_mul_le (by omega), Nat.mul_comm] at hN
    have hmax : Scrypt.SIZE_MAX = 2 ^ 64 - 1 := rfl
    omega
  refine ⟨malloc_room ?_, malloc_room ?_, malloc_room le_rfl⟩
  · rw [size, Nat.mod_eq_of_lt h256]
  · rw [size, Nat.mod_eq_of_lt (a := 128 * r) (by omega), Nat.mod_eq_of_lt h64, Nat.mul_comm]

/-- The derivation runs through if the sizes fit 32 bits. -/
theorem derive_eq (hr : r ≠ 0) (hN : N ≠ 0) (hmax : N ≤ Scrypt.SIZE_MAX / 128 / r) (h128 : 128 * r * p < 2 ^ 32)
    (h256 : 256 * r < 2 ^ 32) :
    derive D passwd salt r N p buflen (malloc g r N p) = some (Scrypt.stretched D passwd salt N r p buflen) := by
  have hcomm : p * 128 * r = 128 * r * p := by ring
  have hlen : p * 128 * r % 2 ^ 32 = p * 128 * r := Nat.mod_eq_of_lt (by omega)
  set B := D.key passwd salt (p * 128 * r)
  have hB : B.length = p * 128 * r := D.length_key _ _ _
  have hroom : Room (malloc g r N p) (bufB 0) B.length := malloc_room (by
    rw [size, hB, hcomm, Nat.mod_eq_of_lt h128])
  obtain ⟨m₁, hm₁, hat₁, -⟩ := store_at hroom
  have hR := (malloc_rooms (g := g) (p := p) hr hmax h256).shape (store_shape _ _ _ _ hm₁)
  obtain ⟨m₂, hm₂, hat₂⟩ := mixParts_at hR (Nat.pos_of_ne_zero hr) hN hB (by omega) hat₁
  have hload : load m₂ (bufB 0) (p * 128 * r) = some (Scrypt.mixed D passwd salt N r p) := by
    have h := load_at hat₂
    rw [length_flatMap_parts fun i hi => length_smix (Nat.pos_of_ne_zero hr) hN (length_part hB hi), ← Nat.mul_assoc] at h
    exact h
  refine Option.bind_eq_some_iff.mpr ⟨m₁, ?_, Option.bind_eq_some_iff.mpr ⟨m₂, hm₂,
    Option.bind_eq_some_iff.mpr ⟨_, ?_, rfl⟩⟩⟩
  · rw [hlen]
    exact hm₁
  · rw [hlen]
    exact hload

/-- The first thing `smix` does is to copy its part of `B` to `XY`. -/
theorem smix_none {q : Ptr Buf} {k : ℕ} (hk : k < 128 * r) (h : m (bufXY.add k) = none ∨ m (q.add k) = none) :
    smix q r N bufV bufXY m = none := by
  have hcpy : blkcpy bufXY q (128 * r) m = none := combine_none hk h
  show (blkcpy bufXY q (128 * r) m).bind _ = none
  rw [hcpy]
  rfl

/-- If they do not, some call of `smix` reads or writes behind a buffer. -/
theorem derive_none (hr : r ≠ 0) (hp : p ≠ 0) (h : 128 * r * p ≥ 2 ^ 32 ∨ 256 * r ≥ 2 ^ 32) :
    derive D passwd salt r N p buflen (malloc g r N p) = none := by
  have hround : ∃ i k, i < p ∧ k < 128 * r ∧ (malloc g r N p (bufXY.add k) = none ∨
      malloc g r N p ((bufB (i * 128 * r % 2 ^ 32)).add k) = none) := by
    by_cases h256 : 256 * r ≥ 2 ^ 32
    · -- `XY` has not even the room for `X`
      refine ⟨0, 256 * r % 2 ^ 32, Nat.pos_of_ne_zero hp, by omega, Or.inl (malloc_none ?_)⟩
      show 256 * r % 2 ^ 32 ≤ 0 + 256 * r % 2 ^ 32
      omega
    · -- the part that lies across the end of `B`
      have h128 : 2 ^ 32 ≤ 128 * r * p := h.resolve_right h256
      set w := 128 * r * p % 2 ^ 32 with hw
      have hlt : w < 128 * r * p := by omega
      have hdiv : w / (128 * r) * (128 * r) + w % (128 * r) = w := by
        rw [Nat.mul_comm]
        exact Nat.div_add_mod _ _
      refine ⟨w / (128 * r), w % (128 * r), Nat.div_lt_of_lt_mul hlt, Nat.mod_lt _ (by omega), Or.inr (malloc_none ?_)⟩
      show 128 * r * p % 2 ^ 32 ≤ w / (128 * r) * 128 * r % 2 ^ 32 + w % (128 * r)
      rw [← hw, Nat.mul_assoc, Nat.mod_eq_of_lt (by omega), hdiv]
  obtain ⟨i, k, hi, hk, hcell⟩ := hround
  refine Option.bind_eq_none_iff.mpr fun m₁ hm₁ => ?_
  have hs₁ := store_shape _ _ _ _ hm₁
  have hloop : loop (fun i => smix (bufB (i * 128 * r % 2 ^ 32)) r N bufV bufXY) p m₁ = none :=
    loop_none (fun m₂ hm₂ => by
      have hs₂ := hs₁.trans (KeepsShape.loop (fun _ => smix_shape _ _ _ _ _) _ _ _ hm₂)
      exact smix_none hk (hcell.imp hs₂.none hs₂.none)) hi
  show (loop (fun i => smix (bufB (i * 128 * r % 2 ^ 32)) r N bufV bufXY) p m₁).bind _ = none
  rw [hloop]
  rfl

/-- **The buffers are large enough, or their sizes overflow.** On memory, with
anything in the allocated buffers, `kdf_scrypt` does what it does on lists: the
same code and the same key, and an access behind a buffer exactly where the
sizes of `B` or `XY` do not fit 32 bits. -/
theorem kdf_scrypt_refines (g : Ptr Buf → Byte) (D : Scrypt.Derive) (passwd salt : List Byte) (N r p : ℕ)
    (a : Scrypt.Allocations) (buf : List Byte) :
    kdf_scrypt g D passwd salt N r p a buf = Scrypt.kdf_scrypt D passwd salt N r p a buf := by
  -- both make the same checks in the same order
  refine ite_congr rfl (fun _ => rfl) fun _ => ?_
  refine ite_congr rfl (fun _ => rfl) fun _ => ?_
  refine ite_congr rfl (fun _ => rfl) fun hpow => ?_
  refine ite_congr rfl (fun _ => rfl) fun hp => ?_
  refine ite_congr rfl (fun _ => rfl) fun _ => ?_
  refine ite_congr rfl (fun _ => rfl) fun hr => ?_
  refine ite_congr rfl (fun _ => rfl) fun hmax => ?_
  refine ite_congr rfl (fun _ => rfl) fun _ => ?_
  refine ite_congr rfl (fun _ => rfl) fun _ => ?_
  refine ite_congr rfl (fun _ => rfl) fun _ => ?_
  by_cases h : 128 * r * p ≥ 2 ^ 32 ∨ 256 * r ≥ 2 ^ 32
  · rw [if_pos h, derive_none hr hp h]
    rfl
  · rw [if_neg h, derive_eq hr (fun h0 => hpow (Or.inr h0)) (by omega) (by omega) (by omega)]
    rfl

end Derive

end ScryptMemory

end Threefizer
