/-
# The written out block functions calculate Threefish

The lines of `ThreefishBlock` are those of the rounds of `Skein3fish`, with the
words left in place and the permutation of each round applied to their numbers
instead (`place`). A line replaces the words at its two places and leaves the
others (`Acts`); so the lines of a round, in the order of the source or in the
opposite one, mix the words at their places two by two
(`Acts.permute_foldl`), and after all rounds every word is at its own place
again.

So the functions calculate Threefish under every key and tweak
(`blockWords_eq_rounds`), what is proved of a cipher whose decryption undoes
encryption holds of them (`threefish_inverts`), and on blocks of bytes each
undoes the other (`blockBytes_inverse`).
-/
import Threefizer.CbcTextbook
import Threefizer.ThreefishBlock

namespace Threefizer

open Words

namespace ThreefishBlock

open Skein3fish (rotl rotr Tables tables mix unmix permute subkey)

/-! ### The words at some places -/

theorem permute_congr {p : List ℕ} {b b' : List Word} (h : ∀ i ∈ p, b'.getD i 0 = b.getD i 0) :
    permute p b' = permute p b := List.map_congr_left h

/-- The places of places. -/
theorem permute_map {p q : List ℕ} (hq : ∀ i ∈ q, i < p.length) (b : List Word) :
    permute (q.map (p.getD · 0)) b = permute q (permute p b) := by
  simp only [permute, List.map_map]
  refine List.map_congr_left fun i hi => ?_
  have hlt := hq i hi
  simp [List.getD_eq_getElem?_getD, hlt]

theorem permute_range (b : List Word) : permute (List.range b.length) b = b := by
  refine List.ext_getElem (by simp) fun i hi hi' => ?_
  simp [permute, hi']

/-! ### The lines of a round -/

/-- The lines of a round from the place `i` on, for the words at the places
`p`, with the rotations `rs`. -/
def roundLines (terms : ℕ → List Summand) : ℕ → List Word → List ℕ → List Line
  | i, r :: rs, y :: x :: p => ⟨y, x, r, terms i, terms (i + 1)⟩ :: roundLines terms (i + 2) rs p
  | _, _, _ => []

/-- The values of the summands from the place `i` on. -/
def termValues (key tweak : List Word) (terms : ℕ → List Summand) (i n : ℕ) : List Word :=
  (List.range' i n).map fun j => sum key tweak (terms j)

/-- The places are different words of `b`. -/
structure Places (p : List ℕ) (b : List Word) : Prop where
  nodup : p.Nodup
  lt : ∀ i ∈ p, i < b.length

theorem Places.tail {y x : ℕ} {p : List ℕ} {b : List Word} (h : Places (y :: x :: p) b) : Places p b where
  nodup := (List.nodup_cons.mp (List.nodup_cons.mp h.nodup).2).2
  lt := fun i hi => h.lt i (List.mem_cons_of_mem _ (List.mem_cons_of_mem _ hi))

theorem Places.head {y x : ℕ} {p : List ℕ} {b : List Word} (h : Places (y :: x :: p) b) :
    (y ≠ x ∧ y ∉ p ∧ x ∉ p) ∧ y < b.length ∧ x < b.length := by
  obtain ⟨hy, hxp⟩ := List.nodup_cons.mp h.nodup
  obtain ⟨hx, -⟩ := List.nodup_cons.mp hxp
  obtain ⟨hne, hyp⟩ := not_or.mp (mt List.mem_cons.mpr hy)
  exact ⟨⟨hne, hyp, hx⟩, h.lt _ (by simp), h.lt _ (by simp)⟩

theorem Places.of_length {p : List ℕ} {b b' : List Word} (hlen : b'.length = b.length) (h : Places p b) :
    Places p b' := ⟨h.nodup, fun i hi => hlen ▸ h.lt i hi⟩

/-- The lines of a round work on their own places, each on two of them. -/
theorem mem_roundLines {terms : ℕ → List Summand} : ∀ {i : ℕ} {rs : List Word} {p : List ℕ} {l : Line},
    p.Nodup → l ∈ roundLines terms i rs p → l.y ∈ p ∧ l.x ∈ p ∧ l.y ≠ l.x
  | _, [], _, _, _, h => by simp [roundLines] at h
  | _, _ :: _, [], _, _, h => by simp [roundLines] at h
  | _, _ :: _, [_], _, _, h => by simp [roundLines] at h
  | i, r :: rs, y :: x :: p, l, hp, h => by
    obtain ⟨hy, hxp⟩ := List.nodup_cons.mp hp
    rcases List.mem_cons.mp h with rfl | h
    · exact ⟨by simp, by simp, fun hyx => hy (by simp [show y = x from hyx])⟩
    · obtain ⟨hy, hx, hne⟩ := mem_roundLines (List.nodup_cons.mp hxp).2 h
      exact ⟨by simp [hy], by simp [hx], hne⟩

/-- `f` is an action of lines that replaces the words at the two places of a
line by `pair` of them and leaves the others. -/
structure Acts (f : List Word → Line → List Word) (pair : Line → Word → Word → Word × Word) : Prop where
  length : ∀ b l, (f b l).length = b.length
  first : ∀ {b l}, l.y < b.length → l.x < b.length → l.y ≠ l.x →
    (f b l).getD l.y 0 = (pair l (b.getD l.y 0) (b.getD l.x 0)).1
  second : ∀ {b l}, l.y < b.length → l.x < b.length → l.y ≠ l.x →
    (f b l).getD l.x 0 = (pair l (b.getD l.y 0) (b.getD l.x 0)).2
  other : ∀ {b l i}, i ≠ l.y → i ≠ l.x → (f b l).getD i 0 = b.getD i 0

/-- Neighbouring words replaced, one line for each two. -/
def pairs (pair : Line → Word → Word → Word × Word) : List Line → List Word → List Word
  | l :: ls, x0 :: x1 :: xs => (pair l x0 x1).1 :: (pair l x0 x1).2 :: pairs pair ls xs
  | _, xs => xs

section Acting

variable {f : List Word → Line → List Word} {pair : Line → Word → Word → Word × Word}
  {terms : ℕ → List Summand}

theorem Acts.length_foldl (hf : Acts f pair) : ∀ (ls : List Line) (b : List Word), (ls.foldl f b).length = b.length
  | [], _ => rfl
  | l :: ls, b => by rw [List.foldl_cons, hf.length_foldl ls, hf.length]

/-- A line leaves the words at places it does not name. -/
theorem Acts.permute_other (hf : Acts f pair) {p : List ℕ} {b : List Word} {l : Line} (hy : l.y ∉ p) (hx : l.x ∉ p) :
    permute p (f b l) = permute p b :=
  permute_congr fun _ hi => hf.other (ne_of_mem_of_not_mem hi hy) (ne_of_mem_of_not_mem hi hx)

/-- So do lines. -/
theorem Acts.getD_foldl (hf : Acts f pair) {p : List ℕ} {i : ℕ} (hi : i ∉ p) : ∀ {ls : List Line} {b : List Word},
    (∀ l ∈ ls, l.y ∈ p ∧ l.x ∈ p ∧ l.y ≠ l.x) → (ls.foldl f b).getD i 0 = b.getD i 0
  | [], _, _ => rfl
  | l :: ls, b, hl => by
    obtain ⟨hy, hx, -⟩ := hl l (by simp)
    rw [List.foldl_cons, hf.getD_foldl hi (fun l' hl' => hl l' (List.mem_cons_of_mem _ hl')),
      hf.other (ne_of_mem_of_not_mem hy hi).symm (ne_of_mem_of_not_mem hx hi).symm]

theorem length_rotations {y x : ℕ} {p : List ℕ} {r : Word} {rs : List Word}
    (h : (y :: x :: p).length = 2 * (r :: rs).length) : p.length = 2 * rs.length := by
  simp only [List.length_cons] at h
  omega

/-- The lines of a round, one after the other, act on the words at their places two by two. -/
theorem Acts.permute_foldl (hf : Acts f pair) : ∀ {i : ℕ} {rs : List Word} {p : List ℕ} {b : List Word},
    Places p b → p.length = 2 * rs.length →
      permute p ((roundLines terms i rs p).foldl f b) = pairs pair (roundLines terms i rs p) (permute p b)
  | _, [], [], _, _, _ => rfl
  | i, r :: rs, y :: x :: p, b, hp, hlen => by
    obtain ⟨⟨hne, hyp, hxp⟩, hy, hx⟩ := hp.head
    have hlines : ∀ l ∈ roundLines terms (i + 2) rs p, l.y ∈ p ∧ l.x ∈ p ∧ l.y ≠ l.x :=
      fun l => mem_roundLines hp.tail.nodup
    have hfirst := hf.first (l := ⟨y, x, r, terms i, terms (i + 1)⟩) hy hx hne
    have hsecond := hf.second (l := ⟨y, x, r, terms i, terms (i + 1)⟩) hy hx hne
    have hother := hf.permute_other (b := b) (l := ⟨y, x, r, terms i, terms (i + 1)⟩) hyp hxp
    set b' := f b ⟨y, x, r, terms i, terms (i + 1)⟩
    have ih := hf.permute_foldl (i := i + 2) (hp.tail.of_length (hf.length b ⟨y, x, r, terms i, terms (i + 1)⟩))
      (length_rotations hlen)
    calc permute (y :: x :: p) ((roundLines terms (i + 2) rs p).foldl f b')
        = b'.getD y 0 :: b'.getD x 0 :: pairs pair (roundLines terms (i + 2) rs p) (permute p b) := by
          rw [permute, List.map_cons, List.map_cons, hf.getD_foldl hyp hlines, hf.getD_foldl hxp hlines, ← hother, ← ih]
          rfl
      _ = _ := by rw [hfirst, hsecond]; rfl

/-- So do they in the opposite order. -/
theorem Acts.permute_foldl_reverse (hf : Acts f pair) : ∀ {i : ℕ} {rs : List Word} {p : List ℕ} {b : List Word},
    Places p b → p.length = 2 * rs.length →
      permute p ((roundLines terms i rs p).reverse.foldl f b) = pairs pair (roundLines terms i rs p) (permute p b)
  | _, [], [], _, _, _ => rfl
  | i, r :: rs, y :: x :: p, b, hp, hlen => by
    obtain ⟨⟨hne, hyp, hxp⟩, hy, hx⟩ := hp.head
    have hlines : ∀ l ∈ (roundLines terms (i + 2) rs p).reverse, l.y ∈ p ∧ l.x ∈ p ∧ l.y ≠ l.x :=
      fun l hl => mem_roundLines hp.tail.nodup (List.mem_reverse.mp hl)
    have ih := hf.permute_foldl_reverse (i := i + 2) hp.tail (length_rotations hlen)
    have hyb : ((roundLines terms (i + 2) rs p).reverse.foldl f b).getD y 0 = b.getD y 0 := hf.getD_foldl hyp hlines
    have hxb : ((roundLines terms (i + 2) rs p).reverse.foldl f b).getD x 0 = b.getD x 0 := hf.getD_foldl hxp hlines
    have hlen' := hf.length_foldl (roundLines terms (i + 2) rs p).reverse b
    rw [roundLines, List.reverse_cons, List.foldl_append, List.foldl_cons, List.foldl_nil]
    set b' := (roundLines terms (i + 2) rs p).reverse.foldl f b
    have hfirst := hf.first (l := ⟨y, x, r, terms i, terms (i + 1)⟩) (hlen' ▸ hy) (hlen' ▸ hx) hne
    have hsecond := hf.second (l := ⟨y, x, r, terms i, terms (i + 1)⟩) (hlen' ▸ hy) (hlen' ▸ hx) hne
    have hother := hf.permute_other (b := b') (l := ⟨y, x, r, terms i, terms (i + 1)⟩) hyp hxp
    calc permute (y :: x :: p) (f b' ⟨y, x, r, terms i, terms (i + 1)⟩)
        = (pair ⟨y, x, r, terms i, terms (i + 1)⟩ (b'.getD y 0) (b'.getD x 0)).1 ::
          (pair ⟨y, x, r, terms i, terms (i + 1)⟩ (b'.getD y 0) (b'.getD x 0)).2 :: permute p b' := by
          rw [← hfirst, ← hsecond, ← hother]
          rfl
      _ = _ := by rw [hyb, hxb, ih]; rfl

end Acting

section Pairs

variable {key tweak : List Word} {terms : ℕ → List Summand}

def encryptPair (key tweak : List Word) (l : Line) (x0 x1 : Word) : Word × Word :=
  let x0 := x0 + sum key tweak l.ys
  let x1 := x1 + sum key tweak l.xs
  (x0 + x1, rotl x1 l.r ^^^ (x0 + x1))

def decryptPair (key tweak : List Word) (l : Line) (x0 x1 : Word) : Word × Word :=
  let x1 := rotr (x1 ^^^ x0) l.r
  (x0 - x1 - sum key tweak l.ys, x1 - sum key tweak l.xs)

theorem acts_encrypt : Acts (Line.encrypt key tweak) (encryptPair key tweak) where
  length b l := by simp [Line.encrypt]
  first := by
    intro b l hy hx hne
    have hsum : ∀ u v w z : Word, u + (v + w + z) = u + z + (v + w) := fun u v w z => by ac_rfl
    simp [Line.encrypt, encryptPair, hy, hx, hne, hne.symm, hsum]
  second := by
    intro b l hy hx hne
    have hsum : ∀ u v w z : Word, u + (v + w + z) = u + z + (v + w) := fun u v w z => by ac_rfl
    simp [Line.encrypt, encryptPair, hy, hx, hne, hne.symm, hsum]
  other := by
    intro b l i hy hx
    simp [Line.encrypt, hy.symm, hx.symm]

theorem acts_decrypt : Acts (Line.decrypt key tweak) (decryptPair key tweak) where
  length b l := by simp [Line.decrypt]
  first := by
    intro b l hy hx hne
    have hsub : ∀ u v w : Word, u - (v + w) = u - v - w := fun u v w => by grind
    simp [Line.decrypt, decryptPair, hy, hx, hne, hne.symm, hsub]
  second := by
    intro b l hy hx hne
    simp [Line.decrypt, decryptPair, hy, hx, hne, hne.symm]
  other := by
    intro b l i hy hx
    simp [Line.decrypt, hy.symm, hx.symm]

theorem termValues_cons (i n : ℕ) : termValues key tweak terms i (n + 2) =
    sum key tweak (terms i) :: sum key tweak (terms (i + 1)) :: termValues key tweak terms (i + 2) n := by
  simp [termValues, List.range'_succ]

/-- The lines of a round are the addition of the summands and the mixing. -/
theorem pairs_encrypt : ∀ {i : ℕ} {rs : List Word} {p : List ℕ} {xs : List Word}, p.length = 2 * rs.length →
    xs.length = p.length → pairs (encryptPair key tweak) (roundLines terms i rs p) xs =
      mix rs (List.zipWith (· + ·) xs (termValues key tweak terms i p.length))
  | _, [], [], [], _, _ => rfl
  | i, r :: rs, y :: x :: p, x0 :: x1 :: xs, hp, hx => by
    have ih := pairs_encrypt (i := i + 2) (length_rotations hp) (Nat.succ.inj (Nat.succ.inj hx))
    rw [List.length_cons, List.length_cons, termValues_cons, List.zipWith_cons_cons, List.zipWith_cons_cons, mix,
      ← ih]
    rfl

theorem pairs_decrypt : ∀ {i : ℕ} {rs : List Word} {p : List ℕ} {xs : List Word}, p.length = 2 * rs.length →
    xs.length = p.length → pairs (decryptPair key tweak) (roundLines terms i rs p) xs =
      List.zipWith (· - ·) (unmix rs xs) (termValues key tweak terms i p.length)
  | _, [], [], [], _, _ => rfl
  | i, r :: rs, y :: x :: p, x0 :: x1 :: xs, hp, hx => by
    have ih := pairs_decrypt (i := i + 2) (length_rotations hp) (Nat.succ.inj (Nat.succ.inj hx))
    rw [List.length_cons, List.length_cons, termValues_cons, unmix, List.zipWith_cons_cons, List.zipWith_cons_cons,
      ← ih]
    rfl

end Pairs

/-! ### The lines are those of the rounds -/

/-- The places of the words before the round `d`. -/
def place (T : Tables) (d : ℕ) : List ℕ := (fun p => T.permutation.map (p.getD · 0))^[d % 4] (List.range T.words)

/-- The summands of the subkey `s`. -/
def subkeyTerms (n s i : ℕ) : List Summand :=
  .k ((s + i) % (n + 1)) ::
    if i + 3 = n then [.t (s % 3)]
    else if i + 2 = n then [.t ((s + 1) % 3)]
    else if i + 1 = n ∧ 0 < s then [.c s]
    else []

/-- The summands in the round `d`. -/
def roundTerms (n d i : ℕ) : List Summand := if d % 4 = 0 then subkeyTerms n (d / 4) i else []

/-- The lines of the round `d`. -/
def linesAt (T : Tables) (d : ℕ) : List Line :=
  roundLines (roundTerms T.words d) 0 (T.rotations.getD (d % 8) []) (place T d)

def encryptLines : SkeinSize → List Line
  | .Skein256 => encryptLines256
  | .Skein512 => encryptLines512
  | .Skein1024 => encryptLines1024

def decryptLines : SkeinSize → List Line
  | .Skein256 => decryptLines256
  | .Skein512 => decryptLines512
  | .Skein1024 => decryptLines1024

def last : SkeinSize → List (List Summand)
  | .Skein256 => last256
  | .Skein512 => last512
  | .Skein1024 => last1024

theorem encryptLines_eq (s : SkeinSize) :
    encryptLines s = (List.range (tables s).rounds).flatMap (linesAt (tables s)) := by
  cases s <;> decide +kernel

/-- The lines of a round of decryption: the source writes those of the two
larger sizes in the opposite order. -/
def inverseLinesAt (s : SkeinSize) (d : ℕ) : List Line :=
  if s = .Skein256 then linesAt (tables s) d else (linesAt (tables s) d).reverse

theorem decryptLines_eq (s : SkeinSize) :
    decryptLines s = (List.range (tables s).rounds).reverse.flatMap (inverseLinesAt s) := by
  cases s <;> decide +kernel

theorem last_eq (s : SkeinSize) :
    last s = (List.range (tables s).words).map (subkeyTerms (tables s).words ((tables s).rounds / 4)) := by
  cases s <;> decide +kernel

/-! ### The places -/

section Tables

variable {s : SkeinSize}

theorem place_succ (s : SkeinSize) (d : ℕ) :
    place (tables s) (d + 1) = (tables s).permutation.map ((place (tables s) d).getD · 0) := by
  have hall : ∀ m < 4, place (tables s) (m + 1) = (tables s).permutation.map ((place (tables s) m).getD · 0) := by
    cases s <;> decide +kernel
  have hmod : (d + 1) % 4 = (d % 4 + 1) % 4 := by omega
  have h := hall (d % 4) (Nat.mod_lt _ (by decide))
  simpa only [place, hmod, Nat.mod_mod] using h

theorem place_ok (s : SkeinSize) (d : ℕ) : (place (tables s) d).Nodup ∧
    (∀ i ∈ place (tables s) d, i < (tables s).words) ∧ (place (tables s) d).length = (tables s).words := by
  have hall : ∀ m < 4, (place (tables s) m).Nodup ∧ (∀ i ∈ place (tables s) m, i < (tables s).words) ∧
      (place (tables s) m).length = (tables s).words := by cases s <;> decide +kernel
  have h := hall (d % 4) (Nat.mod_lt _ (by decide))
  simpa only [place, Nat.mod_mod] using h

theorem places (d : ℕ) {b : List Word} (hb : b.length = (tables s).words) : Places (place (tables s) d) b where
  nodup := (place_ok s d).1
  lt := fun i hi => hb ▸ (place_ok s d).2.1 i hi

theorem place_multiple (s : SkeinSize) : place (tables s) (tables s).rounds = List.range (tables s).words := by
  cases s <;> rfl

theorem length_rotations_getD (d : ℕ) :
    (tables s).words = 2 * ((tables s).rotations.getD (d % 8) []).length := by
  have hall : ∀ m < 8, (tables s).words = 2 * ((tables s).rotations.getD m []).length := by
    cases s <;> decide
  exact hall _ (Nat.mod_lt _ (by decide))

theorem permutation_lt (s : SkeinSize) : ∀ i ∈ (tables s).permutation, i < (tables s).words := by
  cases s <;> decide

end Tables

/-! ### The rounds -/

section Rounds

variable {s : SkeinSize} {key tweak : List Word}

theorem sum_subkeyTerms (n i m : ℕ) :
    sum key tweak (subkeyTerms n m i) =
      let k := key.getD ((m + i) % (n + 1)) 0
      if i + 3 = n then k + tweak.getD (m % 3) 0
      else if i + 2 = n then k + tweak.getD ((m + 1) % 3) 0
      else if i + 1 = n then k + UInt64.ofNat m
      else k := by
  by_cases h3 : i + 3 = n
  · simp [sum, subkeyTerms, Summand.value, h3]
  · by_cases h2 : i + 2 = n
    · simp [sum, subkeyTerms, Summand.value, h3, h2]
    · by_cases h1 : i + 1 = n
      · by_cases h0 : 0 < m
        · simp [sum, subkeyTerms, Summand.value, h3, h2, h1, h0]
        · simp [sum, subkeyTerms, Summand.value, h3, h2, h1, Nat.eq_zero_of_not_pos h0]
      · simp [sum, subkeyTerms, Summand.value, h3, h2, h1]

theorem map_subkeyTerms (n m : ℕ) :
    ((List.range n).map (subkeyTerms n m)).map (sum key tweak) = subkey n key tweak m := by
  rw [List.map_map, subkey]
  exact List.map_congr_left fun i _ => sum_subkeyTerms n i m

/-- What the lines of a round add: the subkey in every fourth round, else nothing. -/
theorem termValues_round (n d : ℕ) : termValues key tweak (roundTerms n d) 0 n =
    if d % 4 = 0 then subkey n key tweak (d / 4) else List.replicate n 0 := by
  rw [termValues, ← List.range_eq_range']
  split
  next h =>
    rw [← map_subkeyTerms, List.map_map]
    exact List.map_congr_left fun i _ => by rw [roundTerms, if_pos h]; rfl
  next h =>
    rw [List.eq_replicate_iff]
    refine ⟨by simp, fun w hw => ?_⟩
    obtain ⟨i, -, rfl⟩ := List.mem_map.mp hw
    rw [roundTerms, if_neg h]
    rfl

theorem zipWith_add_zero : ∀ {xs : List Word} {n : ℕ}, xs.length = n →
    List.zipWith (· + ·) xs (List.replicate n 0) = xs
  | [], _, _ => by simp
  | x :: xs, n + 1, h => by
    rw [List.replicate_succ, List.zipWith_cons_cons, zipWith_add_zero (Nat.succ.inj h), UInt64.add_zero]

theorem zipWith_sub_zero : ∀ {xs : List Word} {n : ℕ}, xs.length = n →
    List.zipWith (· - ·) xs (List.replicate n 0) = xs
  | [], _, _ => by simp
  | x :: xs, n + 1, h => by
    rw [List.replicate_succ, List.zipWith_cons_cons, zipWith_sub_zero (Nat.succ.inj h), UInt64.sub_zero]

/-- The lines of a round are the round, up to where the words are. -/
theorem permute_linesAt (d : ℕ) {b : List Word} (hb : b.length = (tables s).words) :
    permute (place (tables s) (d + 1)) ((linesAt (tables s) d).foldl (Line.encrypt key tweak) b) =
      Skein3fish.encryptRound (tables s) key tweak d (permute (place (tables s) d) b) := by
  obtain ⟨-, -, hlen⟩ := place_ok s d
  have hrot : (place (tables s) d).length = 2 * ((tables s).rotations.getD (d % 8) []).length :=
    hlen.trans (length_rotations_getD d)
  have hx : (permute (place (tables s) d) b).length = (tables s).words := by rw [Skein3fish.length_permute, hlen]
  rw [place_succ, permute_map (fun i hi => hlen ▸ permutation_lt s i hi), linesAt,
    acts_encrypt.permute_foldl (places d hb) hrot, pairs_encrypt hrot (by rw [hx, hlen]), hlen, termValues_round,
    Skein3fish.encryptRound]
  split
  · rfl
  · rw [zipWith_add_zero hx]

/-- The lines of a round of decryption are the round. -/
theorem permute_inverseLinesAt (d : ℕ) {b : List Word} (hb : b.length = (tables s).words) :
    permute (place (tables s) d) ((inverseLinesAt s d).foldl (Line.decrypt key tweak) b) =
      Skein3fish.decryptRound (tables s) key tweak d (permute (place (tables s) (d + 1)) b) := by
  obtain ⟨-, -, hlen⟩ := place_ok s d
  have hrot : (place (tables s) d).length = 2 * ((tables s).rotations.getD (d % 8) []).length :=
    hlen.trans (length_rotations_getD d)
  have hx : (permute (place (tables s) d) b).length = (tables s).words := by rw [Skein3fish.length_permute, hlen]
  have hlines : permute (place (tables s) d) ((inverseLinesAt s d).foldl (Line.decrypt key tweak) b) =
      pairs (decryptPair key tweak) (linesAt (tables s) d) (permute (place (tables s) d) b) := by
    unfold inverseLinesAt
    split
    · exact acts_decrypt.permute_foldl (places d hb) hrot
    · exact acts_decrypt.permute_foldl_reverse (places d hb) hrot
  have hback : permute (tables s).inverse (permute (place (tables s) (d + 1)) b) = permute (place (tables s) d) b := by
    rw [place_succ, permute_map (fun i hi => hlen ▸ permutation_lt s i hi),
      Skein3fish.permute_permute (Skein3fish.length_inverse _) (Skein3fish.permutation_inverse s) hx]
  rw [hlines, linesAt, pairs_decrypt hrot (by rw [hx, hlen]), hlen, termValues_round, Skein3fish.decryptRound, hback]
  split
  · rfl
  · rw [zipWith_sub_zero (by rw [Skein3fish.length_unmix, hx])]

theorem permute_rounds {b : List Word} (hb : b.length = (tables s).words) : ∀ d,
    permute (place (tables s) d) (((List.range d).flatMap (linesAt (tables s))).foldl (Line.encrypt key tweak) b) =
      Skein3fish.encryptRounds (tables s) key tweak d b
  | 0 => by
    show permute (List.range (tables s).words) b = b
    rw [← hb, permute_range]
  | d + 1 => by
    have hlen := acts_encrypt.length_foldl (f := Line.encrypt key tweak) ((List.range d).flatMap (linesAt (tables s))) b
    rw [List.range_succ, List.flatMap_append, List.flatMap_singleton, List.foldl_append,
      permute_linesAt d (hlen.trans hb), permute_rounds hb d, Skein3fish.encryptRounds]

theorem permute_inverseRounds : ∀ (d : ℕ) {b : List Word}, b.length = (tables s).words →
    ((List.range d).reverse.flatMap (inverseLinesAt s)).foldl (Line.decrypt key tweak) b =
      Skein3fish.decryptRounds (tables s) key tweak d (permute (place (tables s) d) b)
  | 0, b, hb => by
    show b = permute (List.range (tables s).words) b
    rw [← hb, permute_range]
  | d + 1, b, hb => by
    have hlen := acts_decrypt.length_foldl (f := Line.decrypt key tweak) (inverseLinesAt s d) b
    rw [List.range_succ, List.reverse_append, List.reverse_singleton, List.singleton_append, List.flatMap_cons,
      List.foldl_append, permute_inverseRounds d (hlen.trans hb), permute_inverseLinesAt d hb,
      Skein3fish.decryptRounds]

end Rounds

/-! ### The functions calculate Threefish -/

theorem length_last (s : SkeinSize) : (last s).length = s.words := by cases s <;> rfl

theorem encryptBlockWords_size (k : ThreefishKey) (b : List Word) :
    threefishEncryptBlockWords k b = encryptWords (encryptLines k.stateSize) (last k.stateSize) k b := by
  unfold threefishEncryptBlockWords
  cases k.stateSize <;> rfl

theorem decryptBlockWords_size (k : ThreefishKey) (b : List Word) :
    threefishDecryptBlockWords k b = decryptWords (decryptLines k.stateSize) (last k.stateSize) k b := by
  unfold threefishDecryptBlockWords
  cases k.stateSize <;> rfl

/-- **The lines of encryption are the rounds of Threefish.** -/
theorem encryptBlockWords_rounds (k : ThreefishKey) {b : List Word} (hb : b.length = k.stateSize.words) :
    threefishEncryptBlockWords k b = Skein3fish.threefishEncryptBlockWords k b := by
  have hw : b.length = (tables k.stateSize).words := by rw [hb, Skein3fish.tables_words]
  have hrounds := @permute_rounds k.stateSize k.key k.tweak b hw (tables k.stateSize).rounds
  have hlen := acts_encrypt.length_foldl (f := Line.encrypt k.key k.tweak) (encryptLines k.stateSize) b
  rw [place_multiple, ← encryptLines_eq, ← hw, ← hlen, permute_range] at hrounds
  rw [encryptBlockWords_size, encryptWords, length_last, ← hb, List.take_length, hrounds, last_eq, map_subkeyTerms]
  rfl

/-- **So are those of decryption.** -/
theorem decryptBlockWords_rounds (k : ThreefishKey) {b : List Word} (hb : b.length = k.stateSize.words) :
    threefishDecryptBlockWords k b = Skein3fish.threefishDecryptBlockWords k b := by
  have hlen : (List.zipWith (· - ·) b ((last k.stateSize).map (sum k.key k.tweak))).length =
      (tables k.stateSize).words := by
    rw [List.length_zipWith, List.length_map, length_last, hb, Nat.min_self, Skein3fish.tables_words]
  rw [decryptBlockWords_size, decryptWords, length_last, ← hb, List.take_length, decryptLines_eq,
    permute_inverseRounds _ hlen, place_multiple, ← hlen, permute_range, last_eq, map_subkeyTerms]
  rfl

/-- **The written out functions calculate Threefish**, under every key and
tweak and for each size. -/
theorem blockWords_eq_rounds (k : ThreefishKey) (b : List Word) (hb : b.length = k.stateSize.words) :
    threefishEncryptBlockWords k b = Skein3fish.threefishEncryptBlockWords k b ∧
      threefishDecryptBlockWords k b = Skein3fish.threefishDecryptBlockWords k b :=
  ⟨encryptBlockWords_rounds k hb, decryptBlockWords_rounds k hb⟩

theorem blockWords_eq_rounds_sample :
    threefishEncryptBlockWords ⟨.Skein1024, List.range 17 |>.map UInt64.ofNat, [1, 2, 3]⟩ (List.replicate 16 5) =
        Skein3fish.threefishEncryptBlockWords ⟨.Skein1024, List.range 17 |>.map UInt64.ofNat, [1, 2, 3]⟩
          (List.replicate 16 5) ∧
      threefishDecryptBlockWords ⟨.Skein1024, List.range 17 |>.map UInt64.ofNat, [1, 2, 3]⟩ (List.replicate 16 5) =
        Skein3fish.threefishDecryptBlockWords ⟨.Skein1024, List.range 17 |>.map UInt64.ofNat, [1, 2, 3]⟩
          (List.replicate 16 5) :=
  blockWords_eq_rounds _ _ rfl

/-- The written out functions as the program calls them. -/
def threefish : Threefish where
  threefishEncryptBlockWords := threefishEncryptBlockWords
  threefishDecryptBlockWords := threefishDecryptBlockWords
  encrypt_length k b hb := by
    rw [encryptBlockWords_rounds k hb]
    exact Skein3fish.threefish.encrypt_length k b hb
  decrypt_length k b hb := by
    rw [decryptBlockWords_rounds k hb]
    exact Skein3fish.threefish.decrypt_length k b hb

theorem threefish_inverts (k : ThreefishKey) : threefish.Inverts k := by
  intro b hb
  have hlen : (Skein3fish.threefishEncryptBlockWords k b).length = _ := Skein3fish.threefish.encrypt_length k b hb
  show threefishDecryptBlockWords k (threefishEncryptBlockWords k b) = b
  rw [encryptBlockWords_rounds k hb, decryptBlockWords_rounds k hlen]
  exact Skein3fish.threefish_inverts k b hb

theorem wordsOf_block {s : SkeinSize} {b : List Byte} (hb : b.length = s.bytes) :
    (wordsOf (b.take s.bytes)).length = s.words ∧ bytesOf (wordsOf (b.take s.bytes)) = b := by
  have hdvd : 8 ∣ b.length := hb ▸ s.bytes_eq ▸ Nat.dvd_mul_right 8 s.words
  rw [← hb, List.take_length]
  refine ⟨?_, bytesOf_wordsOf hdvd⟩
  rw [length_wordsOf hdvd, hb, s.bytes_eq, Nat.mul_div_cancel_left _ (by decide)]

theorem wordsOf_bytes {s : SkeinSize} {ws : List Word} (hws : ws.length = s.words) :
    wordsOf ((bytesOf ws).take s.bytes) = ws := by
  rw [List.take_of_length_le (by rw [length_bytesOf, hws, s.bytes_eq]), wordsOf_bytesOf]

/-- **Each function on blocks of bytes undoes the other**, under every key and tweak. -/
theorem blockBytes_inverse (k : ThreefishKey) (b : List Byte) (hb : b.length = k.stateSize.bytes) :
    threefishDecryptBlockBytes k (threefishEncryptBlockBytes k b) = b ∧
      threefishEncryptBlockBytes k (threefishDecryptBlockBytes k b) = b := by
  obtain ⟨hlen, hback⟩ := wordsOf_block hb
  set ws := wordsOf (b.take k.stateSize.bytes) with hws
  have hinv := threefish_inverts k
  have henc : threefishDecryptBlockWords k (threefishEncryptBlockWords k ws) = ws := hinv ws hlen
  have hdec : threefishEncryptBlockWords k (threefishDecryptBlockWords k ws) = ws := hinv.symm hlen
  have hcipher : (threefishEncryptBlockWords k ws).length = k.stateSize.words := threefish.encrypt_length k ws hlen
  have hplain : (threefishDecryptBlockWords k ws).length = k.stateSize.words := threefish.decrypt_length k ws hlen
  constructor
  · rw [threefishDecryptBlockBytes, threefishEncryptBlockBytes, ← hws, wordsOf_bytes hcipher, henc, hback]
  · rw [threefishEncryptBlockBytes, threefishDecryptBlockBytes, ← hws, wordsOf_bytes hplain, hdec, hback]

theorem blockBytes_inverse_sample :
    threefishDecryptBlockBytes ⟨.Skein512, [], []⟩ (threefishEncryptBlockBytes ⟨.Skein512, [], []⟩ (List.replicate 64 7)) =
        List.replicate 64 7 ∧
      threefishEncryptBlockBytes ⟨.Skein512, [], []⟩ (threefishDecryptBlockBytes ⟨.Skein512, [], []⟩ (List.replicate 64 7)) =
        List.replicate 64 7 :=
  blockBytes_inverse ⟨.Skein512, [], []⟩ _ rfl

end ThreefishBlock

end Threefizer
