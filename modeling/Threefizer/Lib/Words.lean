/-
# Words in memory

Bytes and 64-bit words of a little-endian memory, and runs of words cut into
blocks of one width. Reading words back from the bytes they were stored as
(`wordsOf_bytesOf`) and storing what was read (`bytesOf_wordsOf`) change
nothing; both commute with concatenation at a word boundary. A run of `n`
blocks is its blocks in order (`flatten_blocks`).
-/
import Mathlib.Data.List.Basic
import Mathlib.Algebra.Order.Group.Nat
import Mathlib.Tactic.Common
import Mathlib.Tactic.Ring

/-- A byte of memory. -/
abbrev Byte := UInt8

/-- A 64-bit word of memory. -/
abbrev Word := UInt64

namespace Words

/-! ### One word -/

/-- The eight bytes of a word, the lowest first. -/
def wordBytes (x : Word) : List Byte := (List.range 8).map fun i => UInt8.ofNat (x.toNat / 256 ^ i)

/-- The number a run of bytes stands for, the lowest byte first. -/
def value : List Byte → ℕ
  | [] => 0
  | b :: bs => b.toNat + 256 * value bs

/-- The word stored in eight bytes. -/
def wordOf (bs : List Byte) : Word := UInt64.ofNat (value bs)

@[simp] theorem length_wordBytes (x : Word) : (wordBytes x).length = 8 := by simp [wordBytes]

theorem wordBytes_eq (x : Word) : wordBytes x =
    [UInt8.ofNat x.toNat, UInt8.ofNat (x.toNat / 256), UInt8.ofNat (x.toNat / 65536),
      UInt8.ofNat (x.toNat / 16777216), UInt8.ofNat (x.toNat / 4294967296),
      UInt8.ofNat (x.toNat / 1099511627776), UInt8.ofNat (x.toNat / 281474976710656),
      UInt8.ofNat (x.toNat / 72057594037927936)] := by
  simp [wordBytes, List.range_succ]

theorem wordOf_wordBytes (x : Word) : wordOf (wordBytes x) = x := by
  have hx : x.toNat < 18446744073709551616 := x.toNat_lt
  apply UInt64.toNat_inj.mp
  rw [wordBytes_eq]
  simp only [wordOf, value, UInt8.toNat_ofNat', UInt64.toNat_ofNat']
  omega

theorem wordBytes_wordOf (a b c d e f g h : Byte) :
    wordBytes (wordOf [a, b, c, d, e, f, g, h]) = [a, b, c, d, e, f, g, h] := by
  have ha := a.toNat_lt; have hb := b.toNat_lt; have hc := c.toNat_lt; have hd := d.toNat_lt
  have he := e.toNat_lt; have hf := f.toNat_lt; have hg := g.toNat_lt; have hh := h.toNat_lt
  rw [wordBytes_eq]
  simp only [wordOf, value, UInt64.toNat_ofNat', List.cons.injEq, and_true]
  refine ⟨?_, ?_, ?_, ?_, ?_, ?_, ?_, ?_⟩ <;> apply UInt8.toNat_inj.mp <;>
    simp only [UInt8.toNat_ofNat'] <;> omega

/-! ### Runs of words -/

/-- The bytes of a run of words. -/
def bytesOf (ws : List Word) : List Byte := ws.flatMap wordBytes

/-- The words in a run of bytes; a rest of fewer than eight bytes is not a word. -/
def wordsOf : List Byte → List Word
  | a :: b :: c :: d :: e :: f :: g :: h :: bs => wordOf [a, b, c, d, e, f, g, h] :: wordsOf bs
  | _ => []

@[simp] theorem bytesOf_cons (x : Word) (ws : List Word) :
    bytesOf (x :: ws) = wordBytes x ++ bytesOf ws := rfl

@[simp] theorem bytesOf_append (ws ws' : List Word) :
    bytesOf (ws ++ ws') = bytesOf ws ++ bytesOf ws' := by simp [bytesOf]

@[simp] theorem length_bytesOf (ws : List Word) : (bytesOf ws).length = 8 * ws.length := by
  induction ws with
  | nil => rfl
  | cons x ws ih => simp [ih]; omega

/-- Eight bytes in front are one word in front. -/
theorem wordsOf_append_eight {x y : List Byte} (hx : x.length = 8) :
    wordsOf (x ++ y) = wordOf x :: wordsOf y := by
  match x, hx with
  | [a, b, c, d, e, f, g, h], _ => rfl

theorem wordsOf_bytesOf (ws : List Word) : wordsOf (bytesOf ws) = ws := by
  induction ws with
  | nil => rfl
  | cons x ws ih =>
    rw [bytesOf_cons, wordsOf_append_eight (length_wordBytes x), wordOf_wordBytes, ih]

/-- A run of whole words, one word at a time. -/
theorem whole_words {P : List Byte → Prop} (nil : P [])
    (word : ∀ x bs, x.length = 8 → 8 ∣ bs.length → P bs → P (x ++ bs)) :
    ∀ bs : List Byte, 8 ∣ bs.length → P bs := by
  intro bs
  induction h : bs.length using Nat.strong_induction_on generalizing bs with
  | _ n ih =>
    intro hd
    by_cases h0 : n = 0
    · rw [List.length_eq_zero_iff.mp (h.trans h0)]; exact nil
    · have h8 : 8 ≤ n := Nat.le_of_dvd (Nat.pos_of_ne_zero h0) hd
      have hdrop : (bs.drop 8).length = n - 8 := by simp [h]
      have hd' : 8 ∣ (bs.drop 8).length := by omega
      have := ih (n - 8) (by omega) (bs.drop 8) hdrop (by omega)
      have hw := word (bs.take 8) (bs.drop 8) (by simp; omega) hd' this
      rwa [List.take_append_drop] at hw

theorem bytesOf_wordsOf {bs : List Byte} (h : 8 ∣ bs.length) : bytesOf (wordsOf bs) = bs := by
  refine whole_words (P := fun bs => bytesOf (wordsOf bs) = bs) rfl (fun x bs hx _ ih => ?_) bs h
  rw [wordsOf_append_eight hx, bytesOf_cons, ih]
  match x, hx with
  | [a, b, c, d, e, f, g, h], _ => rw [wordBytes_wordOf]

theorem wordsOf_append {bs : List Byte} (h : 8 ∣ bs.length) (bs' : List Byte) :
    wordsOf (bs ++ bs') = wordsOf bs ++ wordsOf bs' := by
  refine whole_words (P := fun bs => wordsOf (bs ++ bs') = wordsOf bs ++ wordsOf bs') rfl
    (fun x bs hx _ ih => ?_) bs h
  rw [List.append_assoc, wordsOf_append_eight hx, wordsOf_append_eight hx, ih, List.cons_append]

theorem length_wordsOf {bs : List Byte} (h : 8 ∣ bs.length) :
    (wordsOf bs).length = bs.length / 8 := by
  have := congrArg List.length (bytesOf_wordsOf h)
  rw [length_bytesOf] at this
  omega

/-! ### Blocks of one width -/

variable {α : Type*} (w : ℕ)

/-- The first `n` blocks of width `w`. -/
def blocks : ℕ → List α → List (List α)
  | 0, _ => []
  | n + 1, l => l.take w :: blocks n (l.drop w)

@[simp] theorem length_blocks : ∀ (n : ℕ) (l : List α), (blocks w n l).length = n
  | 0, _ => rfl
  | n + 1, l => by simp [blocks, length_blocks n]

/-- The blocks in order are the run. -/
theorem flatten_blocks : ∀ (n : ℕ) (l : List α), (blocks w n l).flatten = l.take (n * w)
  | 0, l => by simp [blocks]
  | n + 1, l => by
    rw [blocks, List.flatten_cons, flatten_blocks n, Nat.succ_mul, Nat.add_comm (n * w),
      List.take_add]

/-- Block `j`. -/
theorem getElem?_blocks : ∀ {n : ℕ} (l : List α) {j : ℕ}, j < n →
    (blocks w n l)[j]? = some ((l.drop (j * w)).take w)
  | n + 1, l, 0, _ => by simp [blocks]
  | n + 1, l, j + 1, h => by
    rw [blocks, List.getElem?_cons_succ, getElem?_blocks (l.drop w) (by omega), List.drop_drop, Nat.add_one_mul,
      Nat.add_comm w]

theorem mem_blocks_length : ∀ {n : ℕ} {l : List α}, n * w ≤ l.length →
    ∀ b ∈ blocks w n l, b.length = w
  | 0, _, _, _, hb => by cases hb
  | n + 1, l, h, b, hb => by
    rw [Nat.succ_mul] at h
    rcases List.mem_cons.mp hb with rfl | hb
    · simp; omega
    · exact mem_blocks_length (by simp; omega) b hb

theorem length_flatten_of_width {w : ℕ} {bs : List (List α)} (h : ∀ b ∈ bs, b.length = w) :
    bs.flatten.length = bs.length * w := by
  induction bs with
  | nil => simp
  | cons b bs ih =>
    rw [List.flatten_cons, List.length_append, h b List.mem_cons_self,
      ih fun x hx => h x (List.mem_cons_of_mem _ hx), List.length_cons, Nat.succ_mul, Nat.add_comm]

theorem blocks_add : ∀ (m n : ℕ) (l : List α),
    blocks w (m + n) l = blocks w m l ++ blocks w n (l.drop (m * w))
  | 0, n, l => by simp [blocks]
  | m + 1, n, l => by
    rw [Nat.add_right_comm, blocks, blocks_add m n, blocks, List.drop_drop, List.cons_append,
      Nat.succ_mul, Nat.add_comm w]

/-- Blocks that lie in the first part do not see the second. -/
theorem blocks_append_left : ∀ {n : ℕ} {l : List α} (l' : List α), n * w ≤ l.length →
    blocks w n (l ++ l') = blocks w n l
  | 0, _, _, _ => rfl
  | n + 1, l, l', h => by
    rw [Nat.succ_mul] at h
    rw [blocks, blocks, List.take_append_of_le_length (by omega),
      List.drop_append_of_le_length (by omega), blocks_append_left l' (by simp; omega)]

/-- The blocks of two runs, the first of whole blocks. -/
theorem blocks_append {m n : ℕ} {l : List α} (l' : List α) (h : l.length = m * w) :
    blocks w (m + n) (l ++ l') = blocks w m l ++ blocks w n l' := by
  rw [blocks_add, blocks_append_left w l' h.ge, ← h, List.drop_left]

/-- A run put together of blocks is cut into them. -/
theorem blocks_flatten {w : ℕ} : ∀ {bs : List (List α)}, (∀ b ∈ bs, b.length = w) →
    blocks w bs.length bs.flatten = bs
  | [], _ => rfl
  | b :: bs, h => by
    have hb := h b List.mem_cons_self
    rw [List.length_cons, List.flatten_cons, blocks, ← hb, List.take_left, List.drop_left, hb,
      blocks_flatten fun x hx => h x (List.mem_cons_of_mem _ hx)]

end Words
