/-
# The block functions of Threefish as they are written out
(`threefish256Block.c`, `threefish512Block.c`, `threefish1024Block.c`, `threefishApi.c`)

The source has no loop over the rounds and no permutation of the words: every
line names the two words it works on, the words of the key and of the tweak
that it adds and the rotation. Here a function is the list of its lines, and
`Line.encrypt` and `Line.decrypt` are what one line does to the words.

That the lines are the rounds of Threefish is in `ThreefishRounds`.
-/
import Threefizer.Skein3fish

namespace Threefizer

open Words

namespace ThreefishBlock

open Skein3fish (rotl rotr)

/-! ### Lines -/

/-- A summand of a line: a word of the key, a word of the tweak or a number. -/
inductive Summand
  | k (i : ℕ)
  | t (i : ℕ)
  | c (n : ℕ)
  deriving DecidableEq, Repr

/-- A line: the words `b[y]` and `b[x]`, the rotation, and what is added to the
one and to the other. -/
structure Line where
  y : ℕ
  x : ℕ
  r : Word
  ys : List Summand
  xs : List Summand
  deriving DecidableEq, Repr

section Semantics

variable (key tweak : List Word)

def Summand.value : Summand → Word
  | .k i => key.getD i 0
  | .t i => tweak.getD i 0
  | .c n => UInt64.ofNat n

def sum (ss : List Summand) : Word := ss.foldr (fun s w => s.value key tweak + w) 0

/-- `b[x] += xs; b[y] += b[x] + ys; b[x] = ((b[x] << r) | (b[x] >> (64 - r))) ^ b[y]`. -/
def Line.encrypt (b : List Word) (l : Line) : List Word :=
  let b := b.set l.x (b.getD l.x 0 + sum key tweak l.xs)
  let b := b.set l.y (b.getD l.y 0 + (b.getD l.x 0 + sum key tweak l.ys))
  b.set l.x (rotl (b.getD l.x 0) l.r ^^^ b.getD l.y 0)

/-- `tmp = b[x] ^ b[y]; b[x] = (tmp >> r) | (tmp << (64 - r)); b[y] -= b[x] + ys; b[x] -= xs`. -/
def Line.decrypt (b : List Word) (l : Line) : List Word :=
  let tmp := b.getD l.x 0 ^^^ b.getD l.y 0
  let b := b.set l.x (rotr tmp l.r)
  let b := b.set l.y (b.getD l.y 0 - (b.getD l.x 0 + sum key tweak l.ys))
  b.set l.x (b.getD l.x 0 - sum key tweak l.xs)

end Semantics

section Code

open Summand

/-- The lines of `threefishEncrypt256`. -/
def encryptLines256 : List Line :=
  [⟨0, 1, 14, [k 0], [k 1, t 0]⟩, ⟨2, 3, 16, [k 2, t 1], [k 3]⟩, ⟨0, 3, 52, [], []⟩, ⟨2, 1, 57, [], []⟩,
   ⟨0, 1, 23, [], []⟩, ⟨2, 3, 40, [], []⟩, ⟨0, 3, 5, [], []⟩, ⟨2, 1, 37, [], []⟩,
   ⟨0, 1, 25, [k 1], [k 2, t 1]⟩, ⟨2, 3, 33, [k 3, t 2], [k 4, c 1]⟩, ⟨0, 3, 46, [], []⟩, ⟨2, 1, 12, [], []⟩,
   ⟨0, 1, 58, [], []⟩, ⟨2, 3, 22, [], []⟩, ⟨0, 3, 32, [], []⟩, ⟨2, 1, 32, [], []⟩,
   ⟨0, 1, 14, [k 2], [k 3, t 2]⟩, ⟨2, 3, 16, [k 4, t 0], [k 0, c 2]⟩, ⟨0, 3, 52, [], []⟩, ⟨2, 1, 57, [], []⟩,
   ⟨0, 1, 23, [], []⟩, ⟨2, 3, 40, [], []⟩, ⟨0, 3, 5, [], []⟩, ⟨2, 1, 37, [], []⟩,
   ⟨0, 1, 25, [k 3], [k 4, t 0]⟩, ⟨2, 3, 33, [k 0, t 1], [k 1, c 3]⟩, ⟨0, 3, 46, [], []⟩, ⟨2, 1, 12, [], []⟩,
   ⟨0, 1, 58, [], []⟩, ⟨2, 3, 22, [], []⟩, ⟨0, 3, 32, [], []⟩, ⟨2, 1, 32, [], []⟩,
   ⟨0, 1, 14, [k 4], [k 0, t 1]⟩, ⟨2, 3, 16, [k 1, t 2], [k 2, c 4]⟩, ⟨0, 3, 52, [], []⟩, ⟨2, 1, 57, [], []⟩,
   ⟨0, 1, 23, [], []⟩, ⟨2, 3, 40, [], []⟩, ⟨0, 3, 5, [], []⟩, ⟨2, 1, 37, [], []⟩,
   ⟨0, 1, 25, [k 0], [k 1, t 2]⟩, ⟨2, 3, 33, [k 2, t 0], [k 3, c 5]⟩, ⟨0, 3, 46, [], []⟩, ⟨2, 1, 12, [], []⟩,
   ⟨0, 1, 58, [], []⟩, ⟨2, 3, 22, [], []⟩, ⟨0, 3, 32, [], []⟩, ⟨2, 1, 32, [], []⟩,
   ⟨0, 1, 14, [k 1], [k 2, t 0]⟩, ⟨2, 3, 16, [k 3, t 1], [k 4, c 6]⟩, ⟨0, 3, 52, [], []⟩, ⟨2, 1, 57, [], []⟩,
   ⟨0, 1, 23, [], []⟩, ⟨2, 3, 40, [], []⟩, ⟨0, 3, 5, [], []⟩, ⟨2, 1, 37, [], []⟩,
   ⟨0, 1, 25, [k 2], [k 3, t 1]⟩, ⟨2, 3, 33, [k 4, t 2], [k 0, c 7]⟩, ⟨0, 3, 46, [], []⟩, ⟨2, 1, 12, [], []⟩,
   ⟨0, 1, 58, [], []⟩, ⟨2, 3, 22, [], []⟩, ⟨0, 3, 32, [], []⟩, ⟨2, 1, 32, [], []⟩,
   ⟨0, 1, 14, [k 3], [k 4, t 2]⟩, ⟨2, 3, 16, [k 0, t 0], [k 1, c 8]⟩, ⟨0, 3, 52, [], []⟩, ⟨2, 1, 57, [], []⟩,
   ⟨0, 1, 23, [], []⟩, ⟨2, 3, 40, [], []⟩, ⟨0, 3, 5, [], []⟩, ⟨2, 1, 37, [], []⟩,
   ⟨0, 1, 25, [k 4], [k 0, t 0]⟩, ⟨2, 3, 33, [k 1, t 1], [k 2, c 9]⟩, ⟨0, 3, 46, [], []⟩, ⟨2, 1, 12, [], []⟩,
   ⟨0, 1, 58, [], []⟩, ⟨2, 3, 22, [], []⟩, ⟨0, 3, 32, [], []⟩, ⟨2, 1, 32, [], []⟩,
   ⟨0, 1, 14, [k 0], [k 1, t 1]⟩, ⟨2, 3, 16, [k 2, t 2], [k 3, c 10]⟩, ⟨0, 3, 52, [], []⟩, ⟨2, 1, 57, [], []⟩,
   ⟨0, 1, 23, [], []⟩, ⟨2, 3, 40, [], []⟩, ⟨0, 3, 5, [], []⟩, ⟨2, 1, 37, [], []⟩,
   ⟨0, 1, 25, [k 1], [k 2, t 2]⟩, ⟨2, 3, 33, [k 3, t 0], [k 4, c 11]⟩, ⟨0, 3, 46, [], []⟩, ⟨2, 1, 12, [], []⟩,
   ⟨0, 1, 58, [], []⟩, ⟨2, 3, 22, [], []⟩, ⟨0, 3, 32, [], []⟩, ⟨2, 1, 32, [], []⟩,
   ⟨0, 1, 14, [k 2], [k 3, t 0]⟩, ⟨2, 3, 16, [k 4, t 1], [k 0, c 12]⟩, ⟨0, 3, 52, [], []⟩, ⟨2, 1, 57, [], []⟩,
   ⟨0, 1, 23, [], []⟩, ⟨2, 3, 40, [], []⟩, ⟨0, 3, 5, [], []⟩, ⟨2, 1, 37, [], []⟩,
   ⟨0, 1, 25, [k 3], [k 4, t 1]⟩, ⟨2, 3, 33, [k 0, t 2], [k 1, c 13]⟩, ⟨0, 3, 46, [], []⟩, ⟨2, 1, 12, [], []⟩,
   ⟨0, 1, 58, [], []⟩, ⟨2, 3, 22, [], []⟩, ⟨0, 3, 32, [], []⟩, ⟨2, 1, 32, [], []⟩,
   ⟨0, 1, 14, [k 4], [k 0, t 2]⟩, ⟨2, 3, 16, [k 1, t 0], [k 2, c 14]⟩, ⟨0, 3, 52, [], []⟩, ⟨2, 1, 57, [], []⟩,
   ⟨0, 1, 23, [], []⟩, ⟨2, 3, 40, [], []⟩, ⟨0, 3, 5, [], []⟩, ⟨2, 1, 37, [], []⟩,
   ⟨0, 1, 25, [k 0], [k 1, t 0]⟩, ⟨2, 3, 33, [k 2, t 1], [k 3, c 15]⟩, ⟨0, 3, 46, [], []⟩, ⟨2, 1, 12, [], []⟩,
   ⟨0, 1, 58, [], []⟩, ⟨2, 3, 22, [], []⟩, ⟨0, 3, 32, [], []⟩, ⟨2, 1, 32, [], []⟩,
   ⟨0, 1, 14, [k 1], [k 2, t 1]⟩, ⟨2, 3, 16, [k 3, t 2], [k 4, c 16]⟩, ⟨0, 3, 52, [], []⟩, ⟨2, 1, 57, [], []⟩,
   ⟨0, 1, 23, [], []⟩, ⟨2, 3, 40, [], []⟩, ⟨0, 3, 5, [], []⟩, ⟨2, 1, 37, [], []⟩,
   ⟨0, 1, 25, [k 2], [k 3, t 2]⟩, ⟨2, 3, 33, [k 4, t 0], [k 0, c 17]⟩, ⟨0, 3, 46, [], []⟩, ⟨2, 1, 12, [], []⟩,
   ⟨0, 1, 58, [], []⟩, ⟨2, 3, 22, [], []⟩, ⟨0, 3, 32, [], []⟩, ⟨2, 1, 32, [], []⟩]

/-- The lines of `threefishDecrypt256`. -/
def decryptLines256 : List Line :=
  [⟨0, 3, 32, [], []⟩, ⟨2, 1, 32, [], []⟩, ⟨0, 1, 58, [], []⟩, ⟨2, 3, 22, [], []⟩, ⟨0, 3, 46, [], []⟩,
   ⟨2, 1, 12, [], []⟩, ⟨0, 1, 25, [k 2], [k 3, t 2]⟩, ⟨2, 3, 33, [k 4, t 0], [k 0, c 17]⟩, ⟨0, 3, 5, [], []⟩,
   ⟨2, 1, 37, [], []⟩, ⟨0, 1, 23, [], []⟩, ⟨2, 3, 40, [], []⟩, ⟨0, 3, 52, [], []⟩, ⟨2, 1, 57, [], []⟩,
   ⟨0, 1, 14, [k 1], [k 2, t 1]⟩, ⟨2, 3, 16, [k 3, t 2], [k 4, c 16]⟩, ⟨0, 3, 32, [], []⟩, ⟨2, 1, 32, [], []⟩,
   ⟨0, 1, 58, [], []⟩, ⟨2, 3, 22, [], []⟩, ⟨0, 3, 46, [], []⟩, ⟨2, 1, 12, [], []⟩,
   ⟨0, 1, 25, [k 0], [k 1, t 0]⟩, ⟨2, 3, 33, [k 2, t 1], [k 3, c 15]⟩, ⟨0, 3, 5, [], []⟩, ⟨2, 1, 37, [], []⟩,
   ⟨0, 1, 23, [], []⟩, ⟨2, 3, 40, [], []⟩, ⟨0, 3, 52, [], []⟩, ⟨2, 1, 57, [], []⟩,
   ⟨0, 1, 14, [k 4], [k 0, t 2]⟩, ⟨2, 3, 16, [k 1, t 0], [k 2, c 14]⟩, ⟨0, 3, 32, [], []⟩, ⟨2, 1, 32, [], []⟩,
   ⟨0, 1, 58, [], []⟩, ⟨2, 3, 22, [], []⟩, ⟨0, 3, 46, [], []⟩, ⟨2, 1, 12, [], []⟩,
   ⟨0, 1, 25, [k 3], [k 4, t 1]⟩, ⟨2, 3, 33, [k 0, t 2], [k 1, c 13]⟩, ⟨0, 3, 5, [], []⟩, ⟨2, 1, 37, [], []⟩,
   ⟨0, 1, 23, [], []⟩, ⟨2, 3, 40, [], []⟩, ⟨0, 3, 52, [], []⟩, ⟨2, 1, 57, [], []⟩,
   ⟨0, 1, 14, [k 2], [k 3, t 0]⟩, ⟨2, 3, 16, [k 4, t 1], [k 0, c 12]⟩, ⟨0, 3, 32, [], []⟩, ⟨2, 1, 32, [], []⟩,
   ⟨0, 1, 58, [], []⟩, ⟨2, 3, 22, [], []⟩, ⟨0, 3, 46, [], []⟩, ⟨2, 1, 12, [], []⟩,
   ⟨0, 1, 25, [k 1], [k 2, t 2]⟩, ⟨2, 3, 33, [k 3, t 0], [k 4, c 11]⟩, ⟨0, 3, 5, [], []⟩, ⟨2, 1, 37, [], []⟩,
   ⟨0, 1, 23, [], []⟩, ⟨2, 3, 40, [], []⟩, ⟨0, 3, 52, [], []⟩, ⟨2, 1, 57, [], []⟩,
   ⟨0, 1, 14, [k 0], [k 1, t 1]⟩, ⟨2, 3, 16, [k 2, t 2], [k 3, c 10]⟩, ⟨0, 3, 32, [], []⟩, ⟨2, 1, 32, [], []⟩,
   ⟨0, 1, 58, [], []⟩, ⟨2, 3, 22, [], []⟩, ⟨0, 3, 46, [], []⟩, ⟨2, 1, 12, [], []⟩,
   ⟨0, 1, 25, [k 4], [k 0, t 0]⟩, ⟨2, 3, 33, [k 1, t 1], [k 2, c 9]⟩, ⟨0, 3, 5, [], []⟩, ⟨2, 1, 37, [], []⟩,
   ⟨0, 1, 23, [], []⟩, ⟨2, 3, 40, [], []⟩, ⟨0, 3, 52, [], []⟩, ⟨2, 1, 57, [], []⟩,
   ⟨0, 1, 14, [k 3], [k 4, t 2]⟩, ⟨2, 3, 16, [k 0, t 0], [k 1, c 8]⟩, ⟨0, 3, 32, [], []⟩, ⟨2, 1, 32, [], []⟩,
   ⟨0, 1, 58, [], []⟩, ⟨2, 3, 22, [], []⟩, ⟨0, 3, 46, [], []⟩, ⟨2, 1, 12, [], []⟩,
   ⟨0, 1, 25, [k 2], [k 3, t 1]⟩, ⟨2, 3, 33, [k 4, t 2], [k 0, c 7]⟩, ⟨0, 3, 5, [], []⟩, ⟨2, 1, 37, [], []⟩,
   ⟨0, 1, 23, [], []⟩, ⟨2, 3, 40, [], []⟩, ⟨0, 3, 52, [], []⟩, ⟨2, 1, 57, [], []⟩,
   ⟨0, 1, 14, [k 1], [k 2, t 0]⟩, ⟨2, 3, 16, [k 3, t 1], [k 4, c 6]⟩, ⟨0, 3, 32, [], []⟩, ⟨2, 1, 32, [], []⟩,
   ⟨0, 1, 58, [], []⟩, ⟨2, 3, 22, [], []⟩, ⟨0, 3, 46, [], []⟩, ⟨2, 1, 12, [], []⟩,
   ⟨0, 1, 25, [k 0], [k 1, t 2]⟩, ⟨2, 3, 33, [k 2, t 0], [k 3, c 5]⟩, ⟨0, 3, 5, [], []⟩, ⟨2, 1, 37, [], []⟩,
   ⟨0, 1, 23, [], []⟩, ⟨2, 3, 40, [], []⟩, ⟨0, 3, 52, [], []⟩, ⟨2, 1, 57, [], []⟩,
   ⟨0, 1, 14, [k 4], [k 0, t 1]⟩, ⟨2, 3, 16, [k 1, t 2], [k 2, c 4]⟩, ⟨0, 3, 32, [], []⟩, ⟨2, 1, 32, [], []⟩,
   ⟨0, 1, 58, [], []⟩, ⟨2, 3, 22, [], []⟩, ⟨0, 3, 46, [], []⟩, ⟨2, 1, 12, [], []⟩,
   ⟨0, 1, 25, [k 3], [k 4, t 0]⟩, ⟨2, 3, 33, [k 0, t 1], [k 1, c 3]⟩, ⟨0, 3, 5, [], []⟩, ⟨2, 1, 37, [], []⟩,
   ⟨0, 1, 23, [], []⟩, ⟨2, 3, 40, [], []⟩, ⟨0, 3, 52, [], []⟩, ⟨2, 1, 57, [], []⟩,
   ⟨0, 1, 14, [k 2], [k 3, t 2]⟩, ⟨2, 3, 16, [k 4, t 0], [k 0, c 2]⟩, ⟨0, 3, 32, [], []⟩, ⟨2, 1, 32, [], []⟩,
   ⟨0, 1, 58, [], []⟩, ⟨2, 3, 22, [], []⟩, ⟨0, 3, 46, [], []⟩, ⟨2, 1, 12, [], []⟩,
   ⟨0, 1, 25, [k 1], [k 2, t 1]⟩, ⟨2, 3, 33, [k 3, t 2], [k 4, c 1]⟩, ⟨0, 3, 5, [], []⟩, ⟨2, 1, 37, [], []⟩,
   ⟨0, 1, 23, [], []⟩, ⟨2, 3, 40, [], []⟩, ⟨0, 3, 52, [], []⟩, ⟨2, 1, 57, [], []⟩,
   ⟨0, 1, 14, [k 0], [k 1, t 0]⟩, ⟨2, 3, 16, [k 2, t 1], [k 3]⟩]

/-- What `threefishEncrypt256` adds at its end and `threefishDecrypt256` subtracts at its start. -/
def last256 : List (List Summand) :=
  [[k 3], [k 4, t 0], [k 0, t 1], [k 1, c 18]]

/-- The lines of `threefishEncrypt512`. -/
def encryptLines512 : List Line :=
  [⟨0, 1, 46, [k 0], [k 1]⟩, ⟨2, 3, 36, [k 2], [k 3]⟩, ⟨4, 5, 19, [k 4], [k 5, t 0]⟩,
   ⟨6, 7, 37, [k 6, t 1], [k 7]⟩, ⟨2, 1, 33, [], []⟩, ⟨4, 7, 27, [], []⟩, ⟨6, 5, 14, [], []⟩,
   ⟨0, 3, 42, [], []⟩, ⟨4, 1, 17, [], []⟩, ⟨6, 3, 49, [], []⟩, ⟨0, 5, 36, [], []⟩, ⟨2, 7, 39, [], []⟩,
   ⟨6, 1, 44, [], []⟩, ⟨0, 7, 9, [], []⟩, ⟨2, 5, 54, [], []⟩, ⟨4, 3, 56, [], []⟩, ⟨0, 1, 39, [k 1], [k 2]⟩,
   ⟨2, 3, 30, [k 3], [k 4]⟩, ⟨4, 5, 34, [k 5], [k 6, t 1]⟩, ⟨6, 7, 24, [k 7, t 2], [k 8, c 1]⟩,
   ⟨2, 1, 13, [], []⟩, ⟨4, 7, 50, [], []⟩, ⟨6, 5, 10, [], []⟩, ⟨0, 3, 17, [], []⟩, ⟨4, 1, 25, [], []⟩,
   ⟨6, 3, 29, [], []⟩, ⟨0, 5, 39, [], []⟩, ⟨2, 7, 43, [], []⟩, ⟨6, 1, 8, [], []⟩, ⟨0, 7, 35, [], []⟩,
   ⟨2, 5, 56, [], []⟩, ⟨4, 3, 22, [], []⟩, ⟨0, 1, 46, [k 2], [k 3]⟩, ⟨2, 3, 36, [k 4], [k 5]⟩,
   ⟨4, 5, 19, [k 6], [k 7, t 2]⟩, ⟨6, 7, 37, [k 8, t 0], [k 0, c 2]⟩, ⟨2, 1, 33, [], []⟩, ⟨4, 7, 27, [], []⟩,
   ⟨6, 5, 14, [], []⟩, ⟨0, 3, 42, [], []⟩, ⟨4, 1, 17, [], []⟩, ⟨6, 3, 49, [], []⟩, ⟨0, 5, 36, [], []⟩,
   ⟨2, 7, 39, [], []⟩, ⟨6, 1, 44, [], []⟩, ⟨0, 7, 9, [], []⟩, ⟨2, 5, 54, [], []⟩, ⟨4, 3, 56, [], []⟩,
   ⟨0, 1, 39, [k 3], [k 4]⟩, ⟨2, 3, 30, [k 5], [k 6]⟩, ⟨4, 5, 34, [k 7], [k 8, t 0]⟩,
   ⟨6, 7, 24, [k 0, t 1], [k 1, c 3]⟩, ⟨2, 1, 13, [], []⟩, ⟨4, 7, 50, [], []⟩, ⟨6, 5, 10, [], []⟩,
   ⟨0, 3, 17, [], []⟩, ⟨4, 1, 25, [], []⟩, ⟨6, 3, 29, [], []⟩, ⟨0, 5, 39, [], []⟩, ⟨2, 7, 43, [], []⟩,
   ⟨6, 1, 8, [], []⟩, ⟨0, 7, 35, [], []⟩, ⟨2, 5, 56, [], []⟩, ⟨4, 3, 22, [], []⟩, ⟨0, 1, 46, [k 4], [k 5]⟩,
   ⟨2, 3, 36, [k 6], [k 7]⟩, ⟨4, 5, 19, [k 8], [k 0, t 1]⟩, ⟨6, 7, 37, [k 1, t 2], [k 2, c 4]⟩,
   ⟨2, 1, 33, [], []⟩, ⟨4, 7, 27, [], []⟩, ⟨6, 5, 14, [], []⟩, ⟨0, 3, 42, [], []⟩, ⟨4, 1, 17, [], []⟩,
   ⟨6, 3, 49, [], []⟩, ⟨0, 5, 36, [], []⟩, ⟨2, 7, 39, [], []⟩, ⟨6, 1, 44, [], []⟩, ⟨0, 7, 9, [], []⟩,
   ⟨2, 5, 54, [], []⟩, ⟨4, 3, 56, [], []⟩, ⟨0, 1, 39, [k 5], [k 6]⟩, ⟨2, 3, 30, [k 7], [k 8]⟩,
   ⟨4, 5, 34, [k 0], [k 1, t 2]⟩, ⟨6, 7, 24, [k 2, t 0], [k 3, c 5]⟩, ⟨2, 1, 13, [], []⟩, ⟨4, 7, 50, [], []⟩,
   ⟨6, 5, 10, [], []⟩, ⟨0, 3, 17, [], []⟩, ⟨4, 1, 25, [], []⟩, ⟨6, 3, 29, [], []⟩, ⟨0, 5, 39, [], []⟩,
   ⟨2, 7, 43, [], []⟩, ⟨6, 1, 8, [], []⟩, ⟨0, 7, 35, [], []⟩, ⟨2, 5, 56, [], []⟩, ⟨4, 3, 22, [], []⟩,
   ⟨0, 1, 46, [k 6], [k 7]⟩, ⟨2, 3, 36, [k 8], [k 0]⟩, ⟨4, 5, 19, [k 1], [k 2, t 0]⟩,
   ⟨6, 7, 37, [k 3, t 1], [k 4, c 6]⟩, ⟨2, 1, 33, [], []⟩, ⟨4, 7, 27, [], []⟩, ⟨6, 5, 14, [], []⟩,
   ⟨0, 3, 42, [], []⟩, ⟨4, 1, 17, [], []⟩, ⟨6, 3, 49, [], []⟩, ⟨0, 5, 36, [], []⟩, ⟨2, 7, 39, [], []⟩,
   ⟨6, 1, 44, [], []⟩, ⟨0, 7, 9, [], []⟩, ⟨2, 5, 54, [], []⟩, ⟨4, 3, 56, [], []⟩, ⟨0, 1, 39, [k 7], [k 8]⟩,
   ⟨2, 3, 30, [k 0], [k 1]⟩, ⟨4, 5, 34, [k 2], [k 3, t 1]⟩, ⟨6, 7, 24, [k 4, t 2], [k 5, c 7]⟩,
   ⟨2, 1, 13, [], []⟩, ⟨4, 7, 50, [], []⟩, ⟨6, 5, 10, [], []⟩, ⟨0, 3, 17, [], []⟩, ⟨4, 1, 25, [], []⟩,
   ⟨6, 3, 29, [], []⟩, ⟨0, 5, 39, [], []⟩, ⟨2, 7, 43, [], []⟩, ⟨6, 1, 8, [], []⟩, ⟨0, 7, 35, [], []⟩,
   ⟨2, 5, 56, [], []⟩, ⟨4, 3, 22, [], []⟩, ⟨0, 1, 46, [k 8], [k 0]⟩, ⟨2, 3, 36, [k 1], [k 2]⟩,
   ⟨4, 5, 19, [k 3], [k 4, t 2]⟩, ⟨6, 7, 37, [k 5, t 0], [k 6, c 8]⟩, ⟨2, 1, 33, [], []⟩, ⟨4, 7, 27, [], []⟩,
   ⟨6, 5, 14, [], []⟩, ⟨0, 3, 42, [], []⟩, ⟨4, 1, 17, [], []⟩, ⟨6, 3, 49, [], []⟩, ⟨0, 5, 36, [], []⟩,
   ⟨2, 7, 39, [], []⟩, ⟨6, 1, 44, [], []⟩, ⟨0, 7, 9, [], []⟩, ⟨2, 5, 54, [], []⟩, ⟨4, 3, 56, [], []⟩,
   ⟨0, 1, 39, [k 0], [k 1]⟩, ⟨2, 3, 30, [k 2], [k 3]⟩, ⟨4, 5, 34, [k 4], [k 5, t 0]⟩,
   ⟨6, 7, 24, [k 6, t 1], [k 7, c 9]⟩, ⟨2, 1, 13, [], []⟩, ⟨4, 7, 50, [], []⟩, ⟨6, 5, 10, [], []⟩,
   ⟨0, 3, 17, [], []⟩, ⟨4, 1, 25, [], []⟩, ⟨6, 3, 29, [], []⟩, ⟨0, 5, 39, [], []⟩, ⟨2, 7, 43, [], []⟩,
   ⟨6, 1, 8, [], []⟩, ⟨0, 7, 35, [], []⟩, ⟨2, 5, 56, [], []⟩, ⟨4, 3, 22, [], []⟩, ⟨0, 1, 46, [k 1], [k 2]⟩,
   ⟨2, 3, 36, [k 3], [k 4]⟩, ⟨4, 5, 19, [k 5], [k 6, t 1]⟩, ⟨6, 7, 37, [k 7, t 2], [k 8, c 10]⟩,
   ⟨2, 1, 33, [], []⟩, ⟨4, 7, 27, [], []⟩, ⟨6, 5, 14, [], []⟩, ⟨0, 3, 42, [], []⟩, ⟨4, 1, 17, [], []⟩,
   ⟨6, 3, 49, [], []⟩, ⟨0, 5, 36, [], []⟩, ⟨2, 7, 39, [], []⟩, ⟨6, 1, 44, [], []⟩, ⟨0, 7, 9, [], []⟩,
   ⟨2, 5, 54, [], []⟩, ⟨4, 3, 56, [], []⟩, ⟨0, 1, 39, [k 2], [k 3]⟩, ⟨2, 3, 30, [k 4], [k 5]⟩,
   ⟨4, 5, 34, [k 6], [k 7, t 2]⟩, ⟨6, 7, 24, [k 8, t 0], [k 0, c 11]⟩, ⟨2, 1, 13, [], []⟩, ⟨4, 7, 50, [], []⟩,
   ⟨6, 5, 10, [], []⟩, ⟨0, 3, 17, [], []⟩, ⟨4, 1, 25, [], []⟩, ⟨6, 3, 29, [], []⟩, ⟨0, 5, 39, [], []⟩,
   ⟨2, 7, 43, [], []⟩, ⟨6, 1, 8, [], []⟩, ⟨0, 7, 35, [], []⟩, ⟨2, 5, 56, [], []⟩, ⟨4, 3, 22, [], []⟩,
   ⟨0, 1, 46, [k 3], [k 4]⟩, ⟨2, 3, 36, [k 5], [k 6]⟩, ⟨4, 5, 19, [k 7], [k 8, t 0]⟩,
   ⟨6, 7, 37, [k 0, t 1], [k 1, c 12]⟩, ⟨2, 1, 33, [], []⟩, ⟨4, 7, 27, [], []⟩, ⟨6, 5, 14, [], []⟩,
   ⟨0, 3, 42, [], []⟩, ⟨4, 1, 17, [], []⟩, ⟨6, 3, 49, [], []⟩, ⟨0, 5, 36, [], []⟩, ⟨2, 7, 39, [], []⟩,
   ⟨6, 1, 44, [], []⟩, ⟨0, 7, 9, [], []⟩, ⟨2, 5, 54, [], []⟩, ⟨4, 3, 56, [], []⟩, ⟨0, 1, 39, [k 4], [k 5]⟩,
   ⟨2, 3, 30, [k 6], [k 7]⟩, ⟨4, 5, 34, [k 8], [k 0, t 1]⟩, ⟨6, 7, 24, [k 1, t 2], [k 2, c 13]⟩,
   ⟨2, 1, 13, [], []⟩, ⟨4, 7, 50, [], []⟩, ⟨6, 5, 10, [], []⟩, ⟨0, 3, 17, [], []⟩, ⟨4, 1, 25, [], []⟩,
   ⟨6, 3, 29, [], []⟩, ⟨0, 5, 39, [], []⟩, ⟨2, 7, 43, [], []⟩, ⟨6, 1, 8, [], []⟩, ⟨0, 7, 35, [], []⟩,
   ⟨2, 5, 56, [], []⟩, ⟨4, 3, 22, [], []⟩, ⟨0, 1, 46, [k 5], [k 6]⟩, ⟨2, 3, 36, [k 7], [k 8]⟩,
   ⟨4, 5, 19, [k 0], [k 1, t 2]⟩, ⟨6, 7, 37, [k 2, t 0], [k 3, c 14]⟩, ⟨2, 1, 33, [], []⟩, ⟨4, 7, 27, [], []⟩,
   ⟨6, 5, 14, [], []⟩, ⟨0, 3, 42, [], []⟩, ⟨4, 1, 17, [], []⟩, ⟨6, 3, 49, [], []⟩, ⟨0, 5, 36, [], []⟩,
   ⟨2, 7, 39, [], []⟩, ⟨6, 1, 44, [], []⟩, ⟨0, 7, 9, [], []⟩, ⟨2, 5, 54, [], []⟩, ⟨4, 3, 56, [], []⟩,
   ⟨0, 1, 39, [k 6], [k 7]⟩, ⟨2, 3, 30, [k 8], [k 0]⟩, ⟨4, 5, 34, [k 1], [k 2, t 0]⟩,
   ⟨6, 7, 24, [k 3, t 1], [k 4, c 15]⟩, ⟨2, 1, 13, [], []⟩, ⟨4, 7, 50, [], []⟩, ⟨6, 5, 10, [], []⟩,
   ⟨0, 3, 17, [], []⟩, ⟨4, 1, 25, [], []⟩, ⟨6, 3, 29, [], []⟩, ⟨0, 5, 39, [], []⟩, ⟨2, 7, 43, [], []⟩,
   ⟨6, 1, 8, [], []⟩, ⟨0, 7, 35, [], []⟩, ⟨2, 5, 56, [], []⟩, ⟨4, 3, 22, [], []⟩, ⟨0, 1, 46, [k 7], [k 8]⟩,
   ⟨2, 3, 36, [k 0], [k 1]⟩, ⟨4, 5, 19, [k 2], [k 3, t 1]⟩, ⟨6, 7, 37, [k 4, t 2], [k 5, c 16]⟩,
   ⟨2, 1, 33, [], []⟩, ⟨4, 7, 27, [], []⟩, ⟨6, 5, 14, [], []⟩, ⟨0, 3, 42, [], []⟩, ⟨4, 1, 17, [], []⟩,
   ⟨6, 3, 49, [], []⟩, ⟨0, 5, 36, [], []⟩, ⟨2, 7, 39, [], []⟩, ⟨6, 1, 44, [], []⟩, ⟨0, 7, 9, [], []⟩,
   ⟨2, 5, 54, [], []⟩, ⟨4, 3, 56, [], []⟩, ⟨0, 1, 39, [k 8], [k 0]⟩, ⟨2, 3, 30, [k 1], [k 2]⟩,
   ⟨4, 5, 34, [k 3], [k 4, t 2]⟩, ⟨6, 7, 24, [k 5, t 0], [k 6, c 17]⟩, ⟨2, 1, 13, [], []⟩, ⟨4, 7, 50, [], []⟩,
   ⟨6, 5, 10, [], []⟩, ⟨0, 3, 17, [], []⟩, ⟨4, 1, 25, [], []⟩, ⟨6, 3, 29, [], []⟩, ⟨0, 5, 39, [], []⟩,
   ⟨2, 7, 43, [], []⟩, ⟨6, 1, 8, [], []⟩, ⟨0, 7, 35, [], []⟩, ⟨2, 5, 56, [], []⟩, ⟨4, 3, 22, [], []⟩]

/-- The lines of `threefishDecrypt512`. -/
def decryptLines512 : List Line :=
  [⟨4, 3, 22, [], []⟩, ⟨2, 5, 56, [], []⟩, ⟨0, 7, 35, [], []⟩, ⟨6, 1, 8, [], []⟩, ⟨2, 7, 43, [], []⟩,
   ⟨0, 5, 39, [], []⟩, ⟨6, 3, 29, [], []⟩, ⟨4, 1, 25, [], []⟩, ⟨0, 3, 17, [], []⟩, ⟨6, 5, 10, [], []⟩,
   ⟨4, 7, 50, [], []⟩, ⟨2, 1, 13, [], []⟩, ⟨6, 7, 24, [k 5, t 0], [k 6, c 17]⟩, ⟨4, 5, 34, [k 3], [k 4, t 2]⟩,
   ⟨2, 3, 30, [k 1], [k 2]⟩, ⟨0, 1, 39, [k 8], [k 0]⟩, ⟨4, 3, 56, [], []⟩, ⟨2, 5, 54, [], []⟩,
   ⟨0, 7, 9, [], []⟩, ⟨6, 1, 44, [], []⟩, ⟨2, 7, 39, [], []⟩, ⟨0, 5, 36, [], []⟩, ⟨6, 3, 49, [], []⟩,
   ⟨4, 1, 17, [], []⟩, ⟨0, 3, 42, [], []⟩, ⟨6, 5, 14, [], []⟩, ⟨4, 7, 27, [], []⟩, ⟨2, 1, 33, [], []⟩,
   ⟨6, 7, 37, [k 4, t 2], [k 5, c 16]⟩, ⟨4, 5, 19, [k 2], [k 3, t 1]⟩, ⟨2, 3, 36, [k 0], [k 1]⟩,
   ⟨0, 1, 46, [k 7], [k 8]⟩, ⟨4, 3, 22, [], []⟩, ⟨2, 5, 56, [], []⟩, ⟨0, 7, 35, [], []⟩, ⟨6, 1, 8, [], []⟩,
   ⟨2, 7, 43, [], []⟩, ⟨0, 5, 39, [], []⟩, ⟨6, 3, 29, [], []⟩, ⟨4, 1, 25, [], []⟩, ⟨0, 3, 17, [], []⟩,
   ⟨6, 5, 10, [], []⟩, ⟨4, 7, 50, [], []⟩, ⟨2, 1, 13, [], []⟩, ⟨6, 7, 24, [k 3, t 1], [k 4, c 15]⟩,
   ⟨4, 5, 34, [k 1], [k 2, t 0]⟩, ⟨2, 3, 30, [k 8], [k 0]⟩, ⟨0, 1, 39, [k 6], [k 7]⟩, ⟨4, 3, 56, [], []⟩,
   ⟨2, 5, 54, [], []⟩, ⟨0, 7, 9, [], []⟩, ⟨6, 1, 44, [], []⟩, ⟨2, 7, 39, [], []⟩, ⟨0, 5, 36, [], []⟩,
   ⟨6, 3, 49, [], []⟩, ⟨4, 1, 17, [], []⟩, ⟨0, 3, 42, [], []⟩, ⟨6, 5, 14, [], []⟩, ⟨4, 7, 27, [], []⟩,
   ⟨2, 1, 33, [], []⟩, ⟨6, 7, 37, [k 2, t 0], [k 3, c 14]⟩, ⟨4, 5, 19, [k 0], [k 1, t 2]⟩,
   ⟨2, 3, 36, [k 7], [k 8]⟩, ⟨0, 1, 46, [k 5], [k 6]⟩, ⟨4, 3, 22, [], []⟩, ⟨2, 5, 56, [], []⟩,
   ⟨0, 7, 35, [], []⟩, ⟨6, 1, 8, [], []⟩, ⟨2, 7, 43, [], []⟩, ⟨0, 5, 39, [], []⟩, ⟨6, 3, 29, [], []⟩,
   ⟨4, 1, 25, [], []⟩, ⟨0, 3, 17, [], []⟩, ⟨6, 5, 10, [], []⟩, ⟨4, 7, 50, [], []⟩, ⟨2, 1, 13, [], []⟩,
   ⟨6, 7, 24, [k 1, t 2], [k 2, c 13]⟩, ⟨4, 5, 34, [k 8], [k 0, t 1]⟩, ⟨2, 3, 30, [k 6], [k 7]⟩,
   ⟨0, 1, 39, [k 4], [k 5]⟩, ⟨4, 3, 56, [], []⟩, ⟨2, 5, 54, [], []⟩, ⟨0, 7, 9, [], []⟩, ⟨6, 1, 44, [], []⟩,
   ⟨2, 7, 39, [], []⟩, ⟨0, 5, 36, [], []⟩, ⟨6, 3, 49, [], []⟩, ⟨4, 1, 17, [], []⟩, ⟨0, 3, 42, [], []⟩,
   ⟨6, 5, 14, [], []⟩, ⟨4, 7, 27, [], []⟩, ⟨2, 1, 33, [], []⟩, ⟨6, 7, 37, [k 0, t 1], [k 1, c 12]⟩,
   ⟨4, 5, 19, [k 7], [k 8, t 0]⟩, ⟨2, 3, 36, [k 5], [k 6]⟩, ⟨0, 1, 46, [k 3], [k 4]⟩, ⟨4, 3, 22, [], []⟩,
   ⟨2, 5, 56, [], []⟩, ⟨0, 7, 35, [], []⟩, ⟨6, 1, 8, [], []⟩, ⟨2, 7, 43, [], []⟩, ⟨0, 5, 39, [], []⟩,
   ⟨6, 3, 29, [], []⟩, ⟨4, 1, 25, [], []⟩, ⟨0, 3, 17, [], []⟩, ⟨6, 5, 10, [], []⟩, ⟨4, 7, 50, [], []⟩,
   ⟨2, 1, 13, [], []⟩, ⟨6, 7, 24, [k 8, t 0], [k 0, c 11]⟩, ⟨4, 5, 34, [k 6], [k 7, t 2]⟩,
   ⟨2, 3, 30, [k 4], [k 5]⟩, ⟨0, 1, 39, [k 2], [k 3]⟩, ⟨4, 3, 56, [], []⟩, ⟨2, 5, 54, [], []⟩,
   ⟨0, 7, 9, [], []⟩, ⟨6, 1, 44, [], []⟩, ⟨2, 7, 39, [], []⟩, ⟨0, 5, 36, [], []⟩, ⟨6, 3, 49, [], []⟩,
   ⟨4, 1, 17, [], []⟩, ⟨0, 3, 42, [], []⟩, ⟨6, 5, 14, [], []⟩, ⟨4, 7, 27, [], []⟩, ⟨2, 1, 33, [], []⟩,
   ⟨6, 7, 37, [k 7, t 2], [k 8, c 10]⟩, ⟨4, 5, 19, [k 5], [k 6, t 1]⟩, ⟨2, 3, 36, [k 3], [k 4]⟩,
   ⟨0, 1, 46, [k 1], [k 2]⟩, ⟨4, 3, 22, [], []⟩, ⟨2, 5, 56, [], []⟩, ⟨0, 7, 35, [], []⟩, ⟨6, 1, 8, [], []⟩,
   ⟨2, 7, 43, [], []⟩, ⟨0, 5, 39, [], []⟩, ⟨6, 3, 29, [], []⟩, ⟨4, 1, 25, [], []⟩, ⟨0, 3, 17, [], []⟩,
   ⟨6, 5, 10, [], []⟩, ⟨4, 7, 50, [], []⟩, ⟨2, 1, 13, [], []⟩, ⟨6, 7, 24, [k 6, t 1], [k 7, c 9]⟩,
   ⟨4, 5, 34, [k 4], [k 5, t 0]⟩, ⟨2, 3, 30, [k 2], [k 3]⟩, ⟨0, 1, 39, [k 0], [k 1]⟩, ⟨4, 3, 56, [], []⟩,
   ⟨2, 5, 54, [], []⟩, ⟨0, 7, 9, [], []⟩, ⟨6, 1, 44, [], []⟩, ⟨2, 7, 39, [], []⟩, ⟨0, 5, 36, [], []⟩,
   ⟨6, 3, 49, [], []⟩, ⟨4, 1, 17, [], []⟩, ⟨0, 3, 42, [], []⟩, ⟨6, 5, 14, [], []⟩, ⟨4, 7, 27, [], []⟩,
   ⟨2, 1, 33, [], []⟩, ⟨6, 7, 37, [k 5, t 0], [k 6, c 8]⟩, ⟨4, 5, 19, [k 3], [k 4, t 2]⟩,
   ⟨2, 3, 36, [k 1], [k 2]⟩, ⟨0, 1, 46, [k 8], [k 0]⟩, ⟨4, 3, 22, [], []⟩, ⟨2, 5, 56, [], []⟩,
   ⟨0, 7, 35, [], []⟩, ⟨6, 1, 8, [], []⟩, ⟨2, 7, 43, [], []⟩, ⟨0, 5, 39, [], []⟩, ⟨6, 3, 29, [], []⟩,
   ⟨4, 1, 25, [], []⟩, ⟨0, 3, 17, [], []⟩, ⟨6, 5, 10, [], []⟩, ⟨4, 7, 50, [], []⟩, ⟨2, 1, 13, [], []⟩,
   ⟨6, 7, 24, [k 4, t 2], [k 5, c 7]⟩, ⟨4, 5, 34, [k 2], [k 3, t 1]⟩, ⟨2, 3, 30, [k 0], [k 1]⟩,
   ⟨0, 1, 39, [k 7], [k 8]⟩, ⟨4, 3, 56, [], []⟩, ⟨2, 5, 54, [], []⟩, ⟨0, 7, 9, [], []⟩, ⟨6, 1, 44, [], []⟩,
   ⟨2, 7, 39, [], []⟩, ⟨0, 5, 36, [], []⟩, ⟨6, 3, 49, [], []⟩, ⟨4, 1, 17, [], []⟩, ⟨0, 3, 42, [], []⟩,
   ⟨6, 5, 14, [], []⟩, ⟨4, 7, 27, [], []⟩, ⟨2, 1, 33, [], []⟩, ⟨6, 7, 37, [k 3, t 1], [k 4, c 6]⟩,
   ⟨4, 5, 19, [k 1], [k 2, t 0]⟩, ⟨2, 3, 36, [k 8], [k 0]⟩, ⟨0, 1, 46, [k 6], [k 7]⟩, ⟨4, 3, 22, [], []⟩,
   ⟨2, 5, 56, [], []⟩, ⟨0, 7, 35, [], []⟩, ⟨6, 1, 8, [], []⟩, ⟨2, 7, 43, [], []⟩, ⟨0, 5, 39, [], []⟩,
   ⟨6, 3, 29, [], []⟩, ⟨4, 1, 25, [], []⟩, ⟨0, 3, 17, [], []⟩, ⟨6, 5, 10, [], []⟩, ⟨4, 7, 50, [], []⟩,
   ⟨2, 1, 13, [], []⟩, ⟨6, 7, 24, [k 2, t 0], [k 3, c 5]⟩, ⟨4, 5, 34, [k 0], [k 1, t 2]⟩,
   ⟨2, 3, 30, [k 7], [k 8]⟩, ⟨0, 1, 39, [k 5], [k 6]⟩, ⟨4, 3, 56, [], []⟩, ⟨2, 5, 54, [], []⟩,
   ⟨0, 7, 9, [], []⟩, ⟨6, 1, 44, [], []⟩, ⟨2, 7, 39, [], []⟩, ⟨0, 5, 36, [], []⟩, ⟨6, 3, 49, [], []⟩,
   ⟨4, 1, 17, [], []⟩, ⟨0, 3, 42, [], []⟩, ⟨6, 5, 14, [], []⟩, ⟨4, 7, 27, [], []⟩, ⟨2, 1, 33, [], []⟩,
   ⟨6, 7, 37, [k 1, t 2], [k 2, c 4]⟩, ⟨4, 5, 19, [k 8], [k 0, t 1]⟩, ⟨2, 3, 36, [k 6], [k 7]⟩,
   ⟨0, 1, 46, [k 4], [k 5]⟩, ⟨4, 3, 22, [], []⟩, ⟨2, 5, 56, [], []⟩, ⟨0, 7, 35, [], []⟩, ⟨6, 1, 8, [], []⟩,
   ⟨2, 7, 43, [], []⟩, ⟨0, 5, 39, [], []⟩, ⟨6, 3, 29, [], []⟩, ⟨4, 1, 25, [], []⟩, ⟨0, 3, 17, [], []⟩,
   ⟨6, 5, 10, [], []⟩, ⟨4, 7, 50, [], []⟩, ⟨2, 1, 13, [], []⟩, ⟨6, 7, 24, [k 0, t 1], [k 1, c 3]⟩,
   ⟨4, 5, 34, [k 7], [k 8, t 0]⟩, ⟨2, 3, 30, [k 5], [k 6]⟩, ⟨0, 1, 39, [k 3], [k 4]⟩, ⟨4, 3, 56, [], []⟩,
   ⟨2, 5, 54, [], []⟩, ⟨0, 7, 9, [], []⟩, ⟨6, 1, 44, [], []⟩, ⟨2, 7, 39, [], []⟩, ⟨0, 5, 36, [], []⟩,
   ⟨6, 3, 49, [], []⟩, ⟨4, 1, 17, [], []⟩, ⟨0, 3, 42, [], []⟩, ⟨6, 5, 14, [], []⟩, ⟨4, 7, 27, [], []⟩,
   ⟨2, 1, 33, [], []⟩, ⟨6, 7, 37, [k 8, t 0], [k 0, c 2]⟩, ⟨4, 5, 19, [k 6], [k 7, t 2]⟩,
   ⟨2, 3, 36, [k 4], [k 5]⟩, ⟨0, 1, 46, [k 2], [k 3]⟩, ⟨4, 3, 22, [], []⟩, ⟨2, 5, 56, [], []⟩,
   ⟨0, 7, 35, [], []⟩, ⟨6, 1, 8, [], []⟩, ⟨2, 7, 43, [], []⟩, ⟨0, 5, 39, [], []⟩, ⟨6, 3, 29, [], []⟩,
   ⟨4, 1, 25, [], []⟩, ⟨0, 3, 17, [], []⟩, ⟨6, 5, 10, [], []⟩, ⟨4, 7, 50, [], []⟩, ⟨2, 1, 13, [], []⟩,
   ⟨6, 7, 24, [k 7, t 2], [k 8, c 1]⟩, ⟨4, 5, 34, [k 5], [k 6, t 1]⟩, ⟨2, 3, 30, [k 3], [k 4]⟩,
   ⟨0, 1, 39, [k 1], [k 2]⟩, ⟨4, 3, 56, [], []⟩, ⟨2, 5, 54, [], []⟩, ⟨0, 7, 9, [], []⟩, ⟨6, 1, 44, [], []⟩,
   ⟨2, 7, 39, [], []⟩, ⟨0, 5, 36, [], []⟩, ⟨6, 3, 49, [], []⟩, ⟨4, 1, 17, [], []⟩, ⟨0, 3, 42, [], []⟩,
   ⟨6, 5, 14, [], []⟩, ⟨4, 7, 27, [], []⟩, ⟨2, 1, 33, [], []⟩, ⟨6, 7, 37, [k 6, t 1], [k 7]⟩,
   ⟨4, 5, 19, [k 4], [k 5, t 0]⟩, ⟨2, 3, 36, [k 2], [k 3]⟩, ⟨0, 1, 46, [k 0], [k 1]⟩]

/-- What `threefishEncrypt512` adds at its end and `threefishDecrypt512` subtracts at its start. -/
def last512 : List (List Summand) :=
  [[k 0], [k 1], [k 2], [k 3], [k 4], [k 5, t 0], [k 6, t 1], [k 7, c 18]]

/-- The lines of `threefishEncrypt1024`. -/
def encryptLines1024 : List Line :=
  [⟨0, 1, 24, [k 0], [k 1]⟩, ⟨2, 3, 13, [k 2], [k 3]⟩, ⟨4, 5, 8, [k 4], [k 5]⟩, ⟨6, 7, 47, [k 6], [k 7]⟩,
   ⟨8, 9, 8, [k 8], [k 9]⟩, ⟨10, 11, 17, [k 10], [k 11]⟩, ⟨12, 13, 22, [k 12], [k 13, t 0]⟩,
   ⟨14, 15, 37, [k 14, t 1], [k 15]⟩, ⟨0, 9, 38, [], []⟩, ⟨2, 13, 19, [], []⟩, ⟨6, 11, 10, [], []⟩,
   ⟨4, 15, 55, [], []⟩, ⟨10, 7, 49, [], []⟩, ⟨12, 3, 18, [], []⟩, ⟨14, 5, 23, [], []⟩, ⟨8, 1, 52, [], []⟩,
   ⟨0, 7, 33, [], []⟩, ⟨2, 5, 4, [], []⟩, ⟨4, 3, 51, [], []⟩, ⟨6, 1, 13, [], []⟩, ⟨12, 15, 34, [], []⟩,
   ⟨14, 13, 41, [], []⟩, ⟨8, 11, 59, [], []⟩, ⟨10, 9, 17, [], []⟩, ⟨0, 15, 5, [], []⟩, ⟨2, 11, 20, [], []⟩,
   ⟨6, 13, 48, [], []⟩, ⟨4, 9, 41, [], []⟩, ⟨14, 1, 47, [], []⟩, ⟨8, 5, 28, [], []⟩, ⟨10, 3, 16, [], []⟩,
   ⟨12, 7, 25, [], []⟩, ⟨0, 1, 41, [k 1], [k 2]⟩, ⟨2, 3, 9, [k 3], [k 4]⟩, ⟨4, 5, 37, [k 5], [k 6]⟩,
   ⟨6, 7, 31, [k 7], [k 8]⟩, ⟨8, 9, 12, [k 9], [k 10]⟩, ⟨10, 11, 47, [k 11], [k 12]⟩,
   ⟨12, 13, 44, [k 13], [k 14, t 1]⟩, ⟨14, 15, 30, [k 15, t 2], [k 16, c 1]⟩, ⟨0, 9, 16, [], []⟩,
   ⟨2, 13, 34, [], []⟩, ⟨6, 11, 56, [], []⟩, ⟨4, 15, 51, [], []⟩, ⟨10, 7, 4, [], []⟩, ⟨12, 3, 53, [], []⟩,
   ⟨14, 5, 42, [], []⟩, ⟨8, 1, 41, [], []⟩, ⟨0, 7, 31, [], []⟩, ⟨2, 5, 44, [], []⟩, ⟨4, 3, 47, [], []⟩,
   ⟨6, 1, 46, [], []⟩, ⟨12, 15, 19, [], []⟩, ⟨14, 13, 42, [], []⟩, ⟨8, 11, 44, [], []⟩, ⟨10, 9, 25, [], []⟩,
   ⟨0, 15, 9, [], []⟩, ⟨2, 11, 48, [], []⟩, ⟨6, 13, 35, [], []⟩, ⟨4, 9, 52, [], []⟩, ⟨14, 1, 23, [], []⟩,
   ⟨8, 5, 31, [], []⟩, ⟨10, 3, 37, [], []⟩, ⟨12, 7, 20, [], []⟩, ⟨0, 1, 24, [k 2], [k 3]⟩,
   ⟨2, 3, 13, [k 4], [k 5]⟩, ⟨4, 5, 8, [k 6], [k 7]⟩, ⟨6, 7, 47, [k 8], [k 9]⟩, ⟨8, 9, 8, [k 10], [k 11]⟩,
   ⟨10, 11, 17, [k 12], [k 13]⟩, ⟨12, 13, 22, [k 14], [k 15, t 2]⟩, ⟨14, 15, 37, [k 16, t 0], [k 0, c 2]⟩,
   ⟨0, 9, 38, [], []⟩, ⟨2, 13, 19, [], []⟩, ⟨6, 11, 10, [], []⟩, ⟨4, 15, 55, [], []⟩, ⟨10, 7, 49, [], []⟩,
   ⟨12, 3, 18, [], []⟩, ⟨14, 5, 23, [], []⟩, ⟨8, 1, 52, [], []⟩, ⟨0, 7, 33, [], []⟩, ⟨2, 5, 4, [], []⟩,
   ⟨4, 3, 51, [], []⟩, ⟨6, 1, 13, [], []⟩, ⟨12, 15, 34, [], []⟩, ⟨14, 13, 41, [], []⟩, ⟨8, 11, 59, [], []⟩,
   ⟨10, 9, 17, [], []⟩, ⟨0, 15, 5, [], []⟩, ⟨2, 11, 20, [], []⟩, ⟨6, 13, 48, [], []⟩, ⟨4, 9, 41, [], []⟩,
   ⟨14, 1, 47, [], []⟩, ⟨8, 5, 28, [], []⟩, ⟨10, 3, 16, [], []⟩, ⟨12, 7, 25, [], []⟩, ⟨0, 1, 41, [k 3], [k 4]⟩,
   ⟨2, 3, 9, [k 5], [k 6]⟩, ⟨4, 5, 37, [k 7], [k 8]⟩, ⟨6, 7, 31, [k 9], [k 10]⟩, ⟨8, 9, 12, [k 11], [k 12]⟩,
   ⟨10, 11, 47, [k 13], [k 14]⟩, ⟨12, 13, 44, [k 15], [k 16, t 0]⟩, ⟨14, 15, 30, [k 0, t 1], [k 1, c 3]⟩,
   ⟨0, 9, 16, [], []⟩, ⟨2, 13, 34, [], []⟩, ⟨6, 11, 56, [], []⟩, ⟨4, 15, 51, [], []⟩, ⟨10, 7, 4, [], []⟩,
   ⟨12, 3, 53, [], []⟩, ⟨14, 5, 42, [], []⟩, ⟨8, 1, 41, [], []⟩, ⟨0, 7, 31, [], []⟩, ⟨2, 5, 44, [], []⟩,
   ⟨4, 3, 47, [], []⟩, ⟨6, 1, 46, [], []⟩, ⟨12, 15, 19, [], []⟩, ⟨14, 13, 42, [], []⟩, ⟨8, 11, 44, [], []⟩,
   ⟨10, 9, 25, [], []⟩, ⟨0, 15, 9, [], []⟩, ⟨2, 11, 48, [], []⟩, ⟨6, 13, 35, [], []⟩, ⟨4, 9, 52, [], []⟩,
   ⟨14, 1, 23, [], []⟩, ⟨8, 5, 31, [], []⟩, ⟨10, 3, 37, [], []⟩, ⟨12, 7, 20, [], []⟩, ⟨0, 1, 24, [k 4], [k 5]⟩,
   ⟨2, 3, 13, [k 6], [k 7]⟩, ⟨4, 5, 8, [k 8], [k 9]⟩, ⟨6, 7, 47, [k 10], [k 11]⟩, ⟨8, 9, 8, [k 12], [k 13]⟩,
   ⟨10, 11, 17, [k 14], [k 15]⟩, ⟨12, 13, 22, [k 16], [k 0, t 1]⟩, ⟨14, 15, 37, [k 1, t 2], [k 2, c 4]⟩,
   ⟨0, 9, 38, [], []⟩, ⟨2, 13, 19, [], []⟩, ⟨6, 11, 10, [], []⟩, ⟨4, 15, 55, [], []⟩, ⟨10, 7, 49, [], []⟩,
   ⟨12, 3, 18, [], []⟩, ⟨14, 5, 23, [], []⟩, ⟨8, 1, 52, [], []⟩, ⟨0, 7, 33, [], []⟩, ⟨2, 5, 4, [], []⟩,
   ⟨4, 3, 51, [], []⟩, ⟨6, 1, 13, [], []⟩, ⟨12, 15, 34, [], []⟩, ⟨14, 13, 41, [], []⟩, ⟨8, 11, 59, [], []⟩,
   ⟨10, 9, 17, [], []⟩, ⟨0, 15, 5, [], []⟩, ⟨2, 11, 20, [], []⟩, ⟨6, 13, 48, [], []⟩, ⟨4, 9, 41, [], []⟩,
   ⟨14, 1, 47, [], []⟩, ⟨8, 5, 28, [], []⟩, ⟨10, 3, 16, [], []⟩, ⟨12, 7, 25, [], []⟩, ⟨0, 1, 41, [k 5], [k 6]⟩,
   ⟨2, 3, 9, [k 7], [k 8]⟩, ⟨4, 5, 37, [k 9], [k 10]⟩, ⟨6, 7, 31, [k 11], [k 12]⟩, ⟨8, 9, 12, [k 13], [k 14]⟩,
   ⟨10, 11, 47, [k 15], [k 16]⟩, ⟨12, 13, 44, [k 0], [k 1, t 2]⟩, ⟨14, 15, 30, [k 2, t 0], [k 3, c 5]⟩,
   ⟨0, 9, 16, [], []⟩, ⟨2, 13, 34, [], []⟩, ⟨6, 11, 56, [], []⟩, ⟨4, 15, 51, [], []⟩, ⟨10, 7, 4, [], []⟩,
   ⟨12, 3, 53, [], []⟩, ⟨14, 5, 42, [], []⟩, ⟨8, 1, 41, [], []⟩, ⟨0, 7, 31, [], []⟩, ⟨2, 5, 44, [], []⟩,
   ⟨4, 3, 47, [], []⟩, ⟨6, 1, 46, [], []⟩, ⟨12, 15, 19, [], []⟩, ⟨14, 13, 42, [], []⟩, ⟨8, 11, 44, [], []⟩,
   ⟨10, 9, 25, [], []⟩, ⟨0, 15, 9, [], []⟩, ⟨2, 11, 48, [], []⟩, ⟨6, 13, 35, [], []⟩, ⟨4, 9, 52, [], []⟩,
   ⟨14, 1, 23, [], []⟩, ⟨8, 5, 31, [], []⟩, ⟨10, 3, 37, [], []⟩, ⟨12, 7, 20, [], []⟩, ⟨0, 1, 24, [k 6], [k 7]⟩,
   ⟨2, 3, 13, [k 8], [k 9]⟩, ⟨4, 5, 8, [k 10], [k 11]⟩, ⟨6, 7, 47, [k 12], [k 13]⟩, ⟨8, 9, 8, [k 14], [k 15]⟩,
   ⟨10, 11, 17, [k 16], [k 0]⟩, ⟨12, 13, 22, [k 1], [k 2, t 0]⟩, ⟨14, 15, 37, [k 3, t 1], [k 4, c 6]⟩,
   ⟨0, 9, 38, [], []⟩, ⟨2, 13, 19, [], []⟩, ⟨6, 11, 10, [], []⟩, ⟨4, 15, 55, [], []⟩, ⟨10, 7, 49, [], []⟩,
   ⟨12, 3, 18, [], []⟩, ⟨14, 5, 23, [], []⟩, ⟨8, 1, 52, [], []⟩, ⟨0, 7, 33, [], []⟩, ⟨2, 5, 4, [], []⟩,
   ⟨4, 3, 51, [], []⟩, ⟨6, 1, 13, [], []⟩, ⟨12, 15, 34, [], []⟩, ⟨14, 13, 41, [], []⟩, ⟨8, 11, 59, [], []⟩,
   ⟨10, 9, 17, [], []⟩, ⟨0, 15, 5, [], []⟩, ⟨2, 11, 20, [], []⟩, ⟨6, 13, 48, [], []⟩, ⟨4, 9, 41, [], []⟩,
   ⟨14, 1, 47, [], []⟩, ⟨8, 5, 28, [], []⟩, ⟨10, 3, 16, [], []⟩, ⟨12, 7, 25, [], []⟩, ⟨0, 1, 41, [k 7], [k 8]⟩,
   ⟨2, 3, 9, [k 9], [k 10]⟩, ⟨4, 5, 37, [k 11], [k 12]⟩, ⟨6, 7, 31, [k 13], [k 14]⟩,
   ⟨8, 9, 12, [k 15], [k 16]⟩, ⟨10, 11, 47, [k 0], [k 1]⟩, ⟨12, 13, 44, [k 2], [k 3, t 1]⟩,
   ⟨14, 15, 30, [k 4, t 2], [k 5, c 7]⟩, ⟨0, 9, 16, [], []⟩, ⟨2, 13, 34, [], []⟩, ⟨6, 11, 56, [], []⟩,
   ⟨4, 15, 51, [], []⟩, ⟨10, 7, 4, [], []⟩, ⟨12, 3, 53, [], []⟩, ⟨14, 5, 42, [], []⟩, ⟨8, 1, 41, [], []⟩,
   ⟨0, 7, 31, [], []⟩, ⟨2, 5, 44, [], []⟩, ⟨4, 3, 47, [], []⟩, ⟨6, 1, 46, [], []⟩, ⟨12, 15, 19, [], []⟩,
   ⟨14, 13, 42, [], []⟩, ⟨8, 11, 44, [], []⟩, ⟨10, 9, 25, [], []⟩, ⟨0, 15, 9, [], []⟩, ⟨2, 11, 48, [], []⟩,
   ⟨6, 13, 35, [], []⟩, ⟨4, 9, 52, [], []⟩, ⟨14, 1, 23, [], []⟩, ⟨8, 5, 31, [], []⟩, ⟨10, 3, 37, [], []⟩,
   ⟨12, 7, 20, [], []⟩, ⟨0, 1, 24, [k 8], [k 9]⟩, ⟨2, 3, 13, [k 10], [k 11]⟩, ⟨4, 5, 8, [k 12], [k 13]⟩,
   ⟨6, 7, 47, [k 14], [k 15]⟩, ⟨8, 9, 8, [k 16], [k 0]⟩, ⟨10, 11, 17, [k 1], [k 2]⟩,
   ⟨12, 13, 22, [k 3], [k 4, t 2]⟩, ⟨14, 15, 37, [k 5, t 0], [k 6, c 8]⟩, ⟨0, 9, 38, [], []⟩,
   ⟨2, 13, 19, [], []⟩, ⟨6, 11, 10, [], []⟩, ⟨4, 15, 55, [], []⟩, ⟨10, 7, 49, [], []⟩, ⟨12, 3, 18, [], []⟩,
   ⟨14, 5, 23, [], []⟩, ⟨8, 1, 52, [], []⟩, ⟨0, 7, 33, [], []⟩, ⟨2, 5, 4, [], []⟩, ⟨4, 3, 51, [], []⟩,
   ⟨6, 1, 13, [], []⟩, ⟨12, 15, 34, [], []⟩, ⟨14, 13, 41, [], []⟩, ⟨8, 11, 59, [], []⟩, ⟨10, 9, 17, [], []⟩,
   ⟨0, 15, 5, [], []⟩, ⟨2, 11, 20, [], []⟩, ⟨6, 13, 48, [], []⟩, ⟨4, 9, 41, [], []⟩, ⟨14, 1, 47, [], []⟩,
   ⟨8, 5, 28, [], []⟩, ⟨10, 3, 16, [], []⟩, ⟨12, 7, 25, [], []⟩, ⟨0, 1, 41, [k 9], [k 10]⟩,
   ⟨2, 3, 9, [k 11], [k 12]⟩, ⟨4, 5, 37, [k 13], [k 14]⟩, ⟨6, 7, 31, [k 15], [k 16]⟩, ⟨8, 9, 12, [k 0], [k 1]⟩,
   ⟨10, 11, 47, [k 2], [k 3]⟩, ⟨12, 13, 44, [k 4], [k 5, t 0]⟩, ⟨14, 15, 30, [k 6, t 1], [k 7, c 9]⟩,
   ⟨0, 9, 16, [], []⟩, ⟨2, 13, 34, [], []⟩, ⟨6, 11, 56, [], []⟩, ⟨4, 15, 51, [], []⟩, ⟨10, 7, 4, [], []⟩,
   ⟨12, 3, 53, [], []⟩, ⟨14, 5, 42, [], []⟩, ⟨8, 1, 41, [], []⟩, ⟨0, 7, 31, [], []⟩, ⟨2, 5, 44, [], []⟩,
   ⟨4, 3, 47, [], []⟩, ⟨6, 1, 46, [], []⟩, ⟨12, 15, 19, [], []⟩, ⟨14, 13, 42, [], []⟩, ⟨8, 11, 44, [], []⟩,
   ⟨10, 9, 25, [], []⟩, ⟨0, 15, 9, [], []⟩, ⟨2, 11, 48, [], []⟩, ⟨6, 13, 35, [], []⟩, ⟨4, 9, 52, [], []⟩,
   ⟨14, 1, 23, [], []⟩, ⟨8, 5, 31, [], []⟩, ⟨10, 3, 37, [], []⟩, ⟨12, 7, 20, [], []⟩,
   ⟨0, 1, 24, [k 10], [k 11]⟩, ⟨2, 3, 13, [k 12], [k 13]⟩, ⟨4, 5, 8, [k 14], [k 15]⟩,
   ⟨6, 7, 47, [k 16], [k 0]⟩, ⟨8, 9, 8, [k 1], [k 2]⟩, ⟨10, 11, 17, [k 3], [k 4]⟩,
   ⟨12, 13, 22, [k 5], [k 6, t 1]⟩, ⟨14, 15, 37, [k 7, t 2], [k 8, c 10]⟩, ⟨0, 9, 38, [], []⟩,
   ⟨2, 13, 19, [], []⟩, ⟨6, 11, 10, [], []⟩, ⟨4, 15, 55, [], []⟩, ⟨10, 7, 49, [], []⟩, ⟨12, 3, 18, [], []⟩,
   ⟨14, 5, 23, [], []⟩, ⟨8, 1, 52, [], []⟩, ⟨0, 7, 33, [], []⟩, ⟨2, 5, 4, [], []⟩, ⟨4, 3, 51, [], []⟩,
   ⟨6, 1, 13, [], []⟩, ⟨12, 15, 34, [], []⟩, ⟨14, 13, 41, [], []⟩, ⟨8, 11, 59, [], []⟩, ⟨10, 9, 17, [], []⟩,
   ⟨0, 15, 5, [], []⟩, ⟨2, 11, 20, [], []⟩, ⟨6, 13, 48, [], []⟩, ⟨4, 9, 41, [], []⟩, ⟨14, 1, 47, [], []⟩,
   ⟨8, 5, 28, [], []⟩, ⟨10, 3, 16, [], []⟩, ⟨12, 7, 25, [], []⟩, ⟨0, 1, 41, [k 11], [k 12]⟩,
   ⟨2, 3, 9, [k 13], [k 14]⟩, ⟨4, 5, 37, [k 15], [k 16]⟩, ⟨6, 7, 31, [k 0], [k 1]⟩, ⟨8, 9, 12, [k 2], [k 3]⟩,
   ⟨10, 11, 47, [k 4], [k 5]⟩, ⟨12, 13, 44, [k 6], [k 7, t 2]⟩, ⟨14, 15, 30, [k 8, t 0], [k 9, c 11]⟩,
   ⟨0, 9, 16, [], []⟩, ⟨2, 13, 34, [], []⟩, ⟨6, 11, 56, [], []⟩, ⟨4, 15, 51, [], []⟩, ⟨10, 7, 4, [], []⟩,
   ⟨12, 3, 53, [], []⟩, ⟨14, 5, 42, [], []⟩, ⟨8, 1, 41, [], []⟩, ⟨0, 7, 31, [], []⟩, ⟨2, 5, 44, [], []⟩,
   ⟨4, 3, 47, [], []⟩, ⟨6, 1, 46, [], []⟩, ⟨12, 15, 19, [], []⟩, ⟨14, 13, 42, [], []⟩, ⟨8, 11, 44, [], []⟩,
   ⟨10, 9, 25, [], []⟩, ⟨0, 15, 9, [], []⟩, ⟨2, 11, 48, [], []⟩, ⟨6, 13, 35, [], []⟩, ⟨4, 9, 52, [], []⟩,
   ⟨14, 1, 23, [], []⟩, ⟨8, 5, 31, [], []⟩, ⟨10, 3, 37, [], []⟩, ⟨12, 7, 20, [], []⟩,
   ⟨0, 1, 24, [k 12], [k 13]⟩, ⟨2, 3, 13, [k 14], [k 15]⟩, ⟨4, 5, 8, [k 16], [k 0]⟩, ⟨6, 7, 47, [k 1], [k 2]⟩,
   ⟨8, 9, 8, [k 3], [k 4]⟩, ⟨10, 11, 17, [k 5], [k 6]⟩, ⟨12, 13, 22, [k 7], [k 8, t 0]⟩,
   ⟨14, 15, 37, [k 9, t 1], [k 10, c 12]⟩, ⟨0, 9, 38, [], []⟩, ⟨2, 13, 19, [], []⟩, ⟨6, 11, 10, [], []⟩,
   ⟨4, 15, 55, [], []⟩, ⟨10, 7, 49, [], []⟩, ⟨12, 3, 18, [], []⟩, ⟨14, 5, 23, [], []⟩, ⟨8, 1, 52, [], []⟩,
   ⟨0, 7, 33, [], []⟩, ⟨2, 5, 4, [], []⟩, ⟨4, 3, 51, [], []⟩, ⟨6, 1, 13, [], []⟩, ⟨12, 15, 34, [], []⟩,
   ⟨14, 13, 41, [], []⟩, ⟨8, 11, 59, [], []⟩, ⟨10, 9, 17, [], []⟩, ⟨0, 15, 5, [], []⟩, ⟨2, 11, 20, [], []⟩,
   ⟨6, 13, 48, [], []⟩, ⟨4, 9, 41, [], []⟩, ⟨14, 1, 47, [], []⟩, ⟨8, 5, 28, [], []⟩, ⟨10, 3, 16, [], []⟩,
   ⟨12, 7, 25, [], []⟩, ⟨0, 1, 41, [k 13], [k 14]⟩, ⟨2, 3, 9, [k 15], [k 16]⟩, ⟨4, 5, 37, [k 0], [k 1]⟩,
   ⟨6, 7, 31, [k 2], [k 3]⟩, ⟨8, 9, 12, [k 4], [k 5]⟩, ⟨10, 11, 47, [k 6], [k 7]⟩,
   ⟨12, 13, 44, [k 8], [k 9, t 1]⟩, ⟨14, 15, 30, [k 10, t 2], [k 11, c 13]⟩, ⟨0, 9, 16, [], []⟩,
   ⟨2, 13, 34, [], []⟩, ⟨6, 11, 56, [], []⟩, ⟨4, 15, 51, [], []⟩, ⟨10, 7, 4, [], []⟩, ⟨12, 3, 53, [], []⟩,
   ⟨14, 5, 42, [], []⟩, ⟨8, 1, 41, [], []⟩, ⟨0, 7, 31, [], []⟩, ⟨2, 5, 44, [], []⟩, ⟨4, 3, 47, [], []⟩,
   ⟨6, 1, 46, [], []⟩, ⟨12, 15, 19, [], []⟩, ⟨14, 13, 42, [], []⟩, ⟨8, 11, 44, [], []⟩, ⟨10, 9, 25, [], []⟩,
   ⟨0, 15, 9, [], []⟩, ⟨2, 11, 48, [], []⟩, ⟨6, 13, 35, [], []⟩, ⟨4, 9, 52, [], []⟩, ⟨14, 1, 23, [], []⟩,
   ⟨8, 5, 31, [], []⟩, ⟨10, 3, 37, [], []⟩, ⟨12, 7, 20, [], []⟩, ⟨0, 1, 24, [k 14], [k 15]⟩,
   ⟨2, 3, 13, [k 16], [k 0]⟩, ⟨4, 5, 8, [k 1], [k 2]⟩, ⟨6, 7, 47, [k 3], [k 4]⟩, ⟨8, 9, 8, [k 5], [k 6]⟩,
   ⟨10, 11, 17, [k 7], [k 8]⟩, ⟨12, 13, 22, [k 9], [k 10, t 2]⟩, ⟨14, 15, 37, [k 11, t 0], [k 12, c 14]⟩,
   ⟨0, 9, 38, [], []⟩, ⟨2, 13, 19, [], []⟩, ⟨6, 11, 10, [], []⟩, ⟨4, 15, 55, [], []⟩, ⟨10, 7, 49, [], []⟩,
   ⟨12, 3, 18, [], []⟩, ⟨14, 5, 23, [], []⟩, ⟨8, 1, 52, [], []⟩, ⟨0, 7, 33, [], []⟩, ⟨2, 5, 4, [], []⟩,
   ⟨4, 3, 51, [], []⟩, ⟨6, 1, 13, [], []⟩, ⟨12, 15, 34, [], []⟩, ⟨14, 13, 41, [], []⟩, ⟨8, 11, 59, [], []⟩,
   ⟨10, 9, 17, [], []⟩, ⟨0, 15, 5, [], []⟩, ⟨2, 11, 20, [], []⟩, ⟨6, 13, 48, [], []⟩, ⟨4, 9, 41, [], []⟩,
   ⟨14, 1, 47, [], []⟩, ⟨8, 5, 28, [], []⟩, ⟨10, 3, 16, [], []⟩, ⟨12, 7, 25, [], []⟩,
   ⟨0, 1, 41, [k 15], [k 16]⟩, ⟨2, 3, 9, [k 0], [k 1]⟩, ⟨4, 5, 37, [k 2], [k 3]⟩, ⟨6, 7, 31, [k 4], [k 5]⟩,
   ⟨8, 9, 12, [k 6], [k 7]⟩, ⟨10, 11, 47, [k 8], [k 9]⟩, ⟨12, 13, 44, [k 10], [k 11, t 0]⟩,
   ⟨14, 15, 30, [k 12, t 1], [k 13, c 15]⟩, ⟨0, 9, 16, [], []⟩, ⟨2, 13, 34, [], []⟩, ⟨6, 11, 56, [], []⟩,
   ⟨4, 15, 51, [], []⟩, ⟨10, 7, 4, [], []⟩, ⟨12, 3, 53, [], []⟩, ⟨14, 5, 42, [], []⟩, ⟨8, 1, 41, [], []⟩,
   ⟨0, 7, 31, [], []⟩, ⟨2, 5, 44, [], []⟩, ⟨4, 3, 47, [], []⟩, ⟨6, 1, 46, [], []⟩, ⟨12, 15, 19, [], []⟩,
   ⟨14, 13, 42, [], []⟩, ⟨8, 11, 44, [], []⟩, ⟨10, 9, 25, [], []⟩, ⟨0, 15, 9, [], []⟩, ⟨2, 11, 48, [], []⟩,
   ⟨6, 13, 35, [], []⟩, ⟨4, 9, 52, [], []⟩, ⟨14, 1, 23, [], []⟩, ⟨8, 5, 31, [], []⟩, ⟨10, 3, 37, [], []⟩,
   ⟨12, 7, 20, [], []⟩, ⟨0, 1, 24, [k 16], [k 0]⟩, ⟨2, 3, 13, [k 1], [k 2]⟩, ⟨4, 5, 8, [k 3], [k 4]⟩,
   ⟨6, 7, 47, [k 5], [k 6]⟩, ⟨8, 9, 8, [k 7], [k 8]⟩, ⟨10, 11, 17, [k 9], [k 10]⟩,
   ⟨12, 13, 22, [k 11], [k 12, t 1]⟩, ⟨14, 15, 37, [k 13, t 2], [k 14, c 16]⟩, ⟨0, 9, 38, [], []⟩,
   ⟨2, 13, 19, [], []⟩, ⟨6, 11, 10, [], []⟩, ⟨4, 15, 55, [], []⟩, ⟨10, 7, 49, [], []⟩, ⟨12, 3, 18, [], []⟩,
   ⟨14, 5, 23, [], []⟩, ⟨8, 1, 52, [], []⟩, ⟨0, 7, 33, [], []⟩, ⟨2, 5, 4, [], []⟩, ⟨4, 3, 51, [], []⟩,
   ⟨6, 1, 13, [], []⟩, ⟨12, 15, 34, [], []⟩, ⟨14, 13, 41, [], []⟩, ⟨8, 11, 59, [], []⟩, ⟨10, 9, 17, [], []⟩,
   ⟨0, 15, 5, [], []⟩, ⟨2, 11, 20, [], []⟩, ⟨6, 13, 48, [], []⟩, ⟨4, 9, 41, [], []⟩, ⟨14, 1, 47, [], []⟩,
   ⟨8, 5, 28, [], []⟩, ⟨10, 3, 16, [], []⟩, ⟨12, 7, 25, [], []⟩, ⟨0, 1, 41, [k 0], [k 1]⟩,
   ⟨2, 3, 9, [k 2], [k 3]⟩, ⟨4, 5, 37, [k 4], [k 5]⟩, ⟨6, 7, 31, [k 6], [k 7]⟩, ⟨8, 9, 12, [k 8], [k 9]⟩,
   ⟨10, 11, 47, [k 10], [k 11]⟩, ⟨12, 13, 44, [k 12], [k 13, t 2]⟩, ⟨14, 15, 30, [k 14, t 0], [k 15, c 17]⟩,
   ⟨0, 9, 16, [], []⟩, ⟨2, 13, 34, [], []⟩, ⟨6, 11, 56, [], []⟩, ⟨4, 15, 51, [], []⟩, ⟨10, 7, 4, [], []⟩,
   ⟨12, 3, 53, [], []⟩, ⟨14, 5, 42, [], []⟩, ⟨8, 1, 41, [], []⟩, ⟨0, 7, 31, [], []⟩, ⟨2, 5, 44, [], []⟩,
   ⟨4, 3, 47, [], []⟩, ⟨6, 1, 46, [], []⟩, ⟨12, 15, 19, [], []⟩, ⟨14, 13, 42, [], []⟩, ⟨8, 11, 44, [], []⟩,
   ⟨10, 9, 25, [], []⟩, ⟨0, 15, 9, [], []⟩, ⟨2, 11, 48, [], []⟩, ⟨6, 13, 35, [], []⟩, ⟨4, 9, 52, [], []⟩,
   ⟨14, 1, 23, [], []⟩, ⟨8, 5, 31, [], []⟩, ⟨10, 3, 37, [], []⟩, ⟨12, 7, 20, [], []⟩, ⟨0, 1, 24, [k 1], [k 2]⟩,
   ⟨2, 3, 13, [k 3], [k 4]⟩, ⟨4, 5, 8, [k 5], [k 6]⟩, ⟨6, 7, 47, [k 7], [k 8]⟩, ⟨8, 9, 8, [k 9], [k 10]⟩,
   ⟨10, 11, 17, [k 11], [k 12]⟩, ⟨12, 13, 22, [k 13], [k 14, t 0]⟩, ⟨14, 15, 37, [k 15, t 1], [k 16, c 18]⟩,
   ⟨0, 9, 38, [], []⟩, ⟨2, 13, 19, [], []⟩, ⟨6, 11, 10, [], []⟩, ⟨4, 15, 55, [], []⟩, ⟨10, 7, 49, [], []⟩,
   ⟨12, 3, 18, [], []⟩, ⟨14, 5, 23, [], []⟩, ⟨8, 1, 52, [], []⟩, ⟨0, 7, 33, [], []⟩, ⟨2, 5, 4, [], []⟩,
   ⟨4, 3, 51, [], []⟩, ⟨6, 1, 13, [], []⟩, ⟨12, 15, 34, [], []⟩, ⟨14, 13, 41, [], []⟩, ⟨8, 11, 59, [], []⟩,
   ⟨10, 9, 17, [], []⟩, ⟨0, 15, 5, [], []⟩, ⟨2, 11, 20, [], []⟩, ⟨6, 13, 48, [], []⟩, ⟨4, 9, 41, [], []⟩,
   ⟨14, 1, 47, [], []⟩, ⟨8, 5, 28, [], []⟩, ⟨10, 3, 16, [], []⟩, ⟨12, 7, 25, [], []⟩, ⟨0, 1, 41, [k 2], [k 3]⟩,
   ⟨2, 3, 9, [k 4], [k 5]⟩, ⟨4, 5, 37, [k 6], [k 7]⟩, ⟨6, 7, 31, [k 8], [k 9]⟩, ⟨8, 9, 12, [k 10], [k 11]⟩,
   ⟨10, 11, 47, [k 12], [k 13]⟩, ⟨12, 13, 44, [k 14], [k 15, t 1]⟩, ⟨14, 15, 30, [k 16, t 2], [k 0, c 19]⟩,
   ⟨0, 9, 16, [], []⟩, ⟨2, 13, 34, [], []⟩, ⟨6, 11, 56, [], []⟩, ⟨4, 15, 51, [], []⟩, ⟨10, 7, 4, [], []⟩,
   ⟨12, 3, 53, [], []⟩, ⟨14, 5, 42, [], []⟩, ⟨8, 1, 41, [], []⟩, ⟨0, 7, 31, [], []⟩, ⟨2, 5, 44, [], []⟩,
   ⟨4, 3, 47, [], []⟩, ⟨6, 1, 46, [], []⟩, ⟨12, 15, 19, [], []⟩, ⟨14, 13, 42, [], []⟩, ⟨8, 11, 44, [], []⟩,
   ⟨10, 9, 25, [], []⟩, ⟨0, 15, 9, [], []⟩, ⟨2, 11, 48, [], []⟩, ⟨6, 13, 35, [], []⟩, ⟨4, 9, 52, [], []⟩,
   ⟨14, 1, 23, [], []⟩, ⟨8, 5, 31, [], []⟩, ⟨10, 3, 37, [], []⟩, ⟨12, 7, 20, [], []⟩]

/-- The lines of `threefishDecrypt1024`. -/
def decryptLines1024 : List Line :=
  [⟨12, 7, 20, [], []⟩, ⟨10, 3, 37, [], []⟩, ⟨8, 5, 31, [], []⟩, ⟨14, 1, 23, [], []⟩, ⟨4, 9, 52, [], []⟩,
   ⟨6, 13, 35, [], []⟩, ⟨2, 11, 48, [], []⟩, ⟨0, 15, 9, [], []⟩, ⟨10, 9, 25, [], []⟩, ⟨8, 11, 44, [], []⟩,
   ⟨14, 13, 42, [], []⟩, ⟨12, 15, 19, [], []⟩, ⟨6, 1, 46, [], []⟩, ⟨4, 3, 47, [], []⟩, ⟨2, 5, 44, [], []⟩,
   ⟨0, 7, 31, [], []⟩, ⟨8, 1, 41, [], []⟩, ⟨14, 5, 42, [], []⟩, ⟨12, 3, 53, [], []⟩, ⟨10, 7, 4, [], []⟩,
   ⟨4, 15, 51, [], []⟩, ⟨6, 11, 56, [], []⟩, ⟨2, 13, 34, [], []⟩, ⟨0, 9, 16, [], []⟩,
   ⟨14, 15, 30, [k 16, t 2], [k 0, c 19]⟩, ⟨12, 13, 44, [k 14], [k 15, t 1]⟩, ⟨10, 11, 47, [k 12], [k 13]⟩,
   ⟨8, 9, 12, [k 10], [k 11]⟩, ⟨6, 7, 31, [k 8], [k 9]⟩, ⟨4, 5, 37, [k 6], [k 7]⟩, ⟨2, 3, 9, [k 4], [k 5]⟩,
   ⟨0, 1, 41, [k 2], [k 3]⟩, ⟨12, 7, 25, [], []⟩, ⟨10, 3, 16, [], []⟩, ⟨8, 5, 28, [], []⟩, ⟨14, 1, 47, [], []⟩,
   ⟨4, 9, 41, [], []⟩, ⟨6, 13, 48, [], []⟩, ⟨2, 11, 20, [], []⟩, ⟨0, 15, 5, [], []⟩, ⟨10, 9, 17, [], []⟩,
   ⟨8, 11, 59, [], []⟩, ⟨14, 13, 41, [], []⟩, ⟨12, 15, 34, [], []⟩, ⟨6, 1, 13, [], []⟩, ⟨4, 3, 51, [], []⟩,
   ⟨2, 5, 4, [], []⟩, ⟨0, 7, 33, [], []⟩, ⟨8, 1, 52, [], []⟩, ⟨14, 5, 23, [], []⟩, ⟨12, 3, 18, [], []⟩,
   ⟨10, 7, 49, [], []⟩, ⟨4, 15, 55, [], []⟩, ⟨6, 11, 10, [], []⟩, ⟨2, 13, 19, [], []⟩, ⟨0, 9, 38, [], []⟩,
   ⟨14, 15, 37, [k 15, t 1], [k 16, c 18]⟩, ⟨12, 13, 22, [k 13], [k 14, t 0]⟩, ⟨10, 11, 17, [k 11], [k 12]⟩,
   ⟨8, 9, 8, [k 9], [k 10]⟩, ⟨6, 7, 47, [k 7], [k 8]⟩, ⟨4, 5, 8, [k 5], [k 6]⟩, ⟨2, 3, 13, [k 3], [k 4]⟩,
   ⟨0, 1, 24, [k 1], [k 2]⟩, ⟨12, 7, 20, [], []⟩, ⟨10, 3, 37, [], []⟩, ⟨8, 5, 31, [], []⟩, ⟨14, 1, 23, [], []⟩,
   ⟨4, 9, 52, [], []⟩, ⟨6, 13, 35, [], []⟩, ⟨2, 11, 48, [], []⟩, ⟨0, 15, 9, [], []⟩, ⟨10, 9, 25, [], []⟩,
   ⟨8, 11, 44, [], []⟩, ⟨14, 13, 42, [], []⟩, ⟨12, 15, 19, [], []⟩, ⟨6, 1, 46, [], []⟩, ⟨4, 3, 47, [], []⟩,
   ⟨2, 5, 44, [], []⟩, ⟨0, 7, 31, [], []⟩, ⟨8, 1, 41, [], []⟩, ⟨14, 5, 42, [], []⟩, ⟨12, 3, 53, [], []⟩,
   ⟨10, 7, 4, [], []⟩, ⟨4, 15, 51, [], []⟩, ⟨6, 11, 56, [], []⟩, ⟨2, 13, 34, [], []⟩, ⟨0, 9, 16, [], []⟩,
   ⟨14, 15, 30, [k 14, t 0], [k 15, c 17]⟩, ⟨12, 13, 44, [k 12], [k 13, t 2]⟩, ⟨10, 11, 47, [k 10], [k 11]⟩,
   ⟨8, 9, 12, [k 8], [k 9]⟩, ⟨6, 7, 31, [k 6], [k 7]⟩, ⟨4, 5, 37, [k 4], [k 5]⟩, ⟨2, 3, 9, [k 2], [k 3]⟩,
   ⟨0, 1, 41, [k 0], [k 1]⟩, ⟨12, 7, 25, [], []⟩, ⟨10, 3, 16, [], []⟩, ⟨8, 5, 28, [], []⟩, ⟨14, 1, 47, [], []⟩,
   ⟨4, 9, 41, [], []⟩, ⟨6, 13, 48, [], []⟩, ⟨2, 11, 20, [], []⟩, ⟨0, 15, 5, [], []⟩, ⟨10, 9, 17, [], []⟩,
   ⟨8, 11, 59, [], []⟩, ⟨14, 13, 41, [], []⟩, ⟨12, 15, 34, [], []⟩, ⟨6, 1, 13, [], []⟩, ⟨4, 3, 51, [], []⟩,
   ⟨2, 5, 4, [], []⟩, ⟨0, 7, 33, [], []⟩, ⟨8, 1, 52, [], []⟩, ⟨14, 5, 23, [], []⟩, ⟨12, 3, 18, [], []⟩,
   ⟨10, 7, 49, [], []⟩, ⟨4, 15, 55, [], []⟩, ⟨6, 11, 10, [], []⟩, ⟨2, 13, 19, [], []⟩, ⟨0, 9, 38, [], []⟩,
   ⟨14, 15, 37, [k 13, t 2], [k 14, c 16]⟩, ⟨12, 13, 22, [k 11], [k 12, t 1]⟩, ⟨10, 11, 17, [k 9], [k 10]⟩,
   ⟨8, 9, 8, [k 7], [k 8]⟩, ⟨6, 7, 47, [k 5], [k 6]⟩, ⟨4, 5, 8, [k 3], [k 4]⟩, ⟨2, 3, 13, [k 1], [k 2]⟩,
   ⟨0, 1, 24, [k 16], [k 0]⟩, ⟨12, 7, 20, [], []⟩, ⟨10, 3, 37, [], []⟩, ⟨8, 5, 31, [], []⟩,
   ⟨14, 1, 23, [], []⟩, ⟨4, 9, 52, [], []⟩, ⟨6, 13, 35, [], []⟩, ⟨2, 11, 48, [], []⟩, ⟨0, 15, 9, [], []⟩,
   ⟨10, 9, 25, [], []⟩, ⟨8, 11, 44, [], []⟩, ⟨14, 13, 42, [], []⟩, ⟨12, 15, 19, [], []⟩, ⟨6, 1, 46, [], []⟩,
   ⟨4, 3, 47, [], []⟩, ⟨2, 5, 44, [], []⟩, ⟨0, 7, 31, [], []⟩, ⟨8, 1, 41, [], []⟩, ⟨14, 5, 42, [], []⟩,
   ⟨12, 3, 53, [], []⟩, ⟨10, 7, 4, [], []⟩, ⟨4, 15, 51, [], []⟩, ⟨6, 11, 56, [], []⟩, ⟨2, 13, 34, [], []⟩,
   ⟨0, 9, 16, [], []⟩, ⟨14, 15, 30, [k 12, t 1], [k 13, c 15]⟩, ⟨12, 13, 44, [k 10], [k 11, t 0]⟩,
   ⟨10, 11, 47, [k 8], [k 9]⟩, ⟨8, 9, 12, [k 6], [k 7]⟩, ⟨6, 7, 31, [k 4], [k 5]⟩, ⟨4, 5, 37, [k 2], [k 3]⟩,
   ⟨2, 3, 9, [k 0], [k 1]⟩, ⟨0, 1, 41, [k 15], [k 16]⟩, ⟨12, 7, 25, [], []⟩, ⟨10, 3, 16, [], []⟩,
   ⟨8, 5, 28, [], []⟩, ⟨14, 1, 47, [], []⟩, ⟨4, 9, 41, [], []⟩, ⟨6, 13, 48, [], []⟩, ⟨2, 11, 20, [], []⟩,
   ⟨0, 15, 5, [], []⟩, ⟨10, 9, 17, [], []⟩, ⟨8, 11, 59, [], []⟩, ⟨14, 13, 41, [], []⟩, ⟨12, 15, 34, [], []⟩,
   ⟨6, 1, 13, [], []⟩, ⟨4, 3, 51, [], []⟩, ⟨2, 5, 4, [], []⟩, ⟨0, 7, 33, [], []⟩, ⟨8, 1, 52, [], []⟩,
   ⟨14, 5, 23, [], []⟩, ⟨12, 3, 18, [], []⟩, ⟨10, 7, 49, [], []⟩, ⟨4, 15, 55, [], []⟩, ⟨6, 11, 10, [], []⟩,
   ⟨2, 13, 19, [], []⟩, ⟨0, 9, 38, [], []⟩, ⟨14, 15, 37, [k 11, t 0], [k 12, c 14]⟩,
   ⟨12, 13, 22, [k 9], [k 10, t 2]⟩, ⟨10, 11, 17, [k 7], [k 8]⟩, ⟨8, 9, 8, [k 5], [k 6]⟩,
   ⟨6, 7, 47, [k 3], [k 4]⟩, ⟨4, 5, 8, [k 1], [k 2]⟩, ⟨2, 3, 13, [k 16], [k 0]⟩, ⟨0, 1, 24, [k 14], [k 15]⟩,
   ⟨12, 7, 20, [], []⟩, ⟨10, 3, 37, [], []⟩, ⟨8, 5, 31, [], []⟩, ⟨14, 1, 23, [], []⟩, ⟨4, 9, 52, [], []⟩,
   ⟨6, 13, 35, [], []⟩, ⟨2, 11, 48, [], []⟩, ⟨0, 15, 9, [], []⟩, ⟨10, 9, 25, [], []⟩, ⟨8, 11, 44, [], []⟩,
   ⟨14, 13, 42, [], []⟩, ⟨12, 15, 19, [], []⟩, ⟨6, 1, 46, [], []⟩, ⟨4, 3, 47, [], []⟩, ⟨2, 5, 44, [], []⟩,
   ⟨0, 7, 31, [], []⟩, ⟨8, 1, 41, [], []⟩, ⟨14, 5, 42, [], []⟩, ⟨12, 3, 53, [], []⟩, ⟨10, 7, 4, [], []⟩,
   ⟨4, 15, 51, [], []⟩, ⟨6, 11, 56, [], []⟩, ⟨2, 13, 34, [], []⟩, ⟨0, 9, 16, [], []⟩,
   ⟨14, 15, 30, [k 10, t 2], [k 11, c 13]⟩, ⟨12, 13, 44, [k 8], [k 9, t 1]⟩, ⟨10, 11, 47, [k 6], [k 7]⟩,
   ⟨8, 9, 12, [k 4], [k 5]⟩, ⟨6, 7, 31, [k 2], [k 3]⟩, ⟨4, 5, 37, [k 0], [k 1]⟩, ⟨2, 3, 9, [k 15], [k 16]⟩,
   ⟨0, 1, 41, [k 13], [k 14]⟩, ⟨12, 7, 25, [], []⟩, ⟨10, 3, 16, [], []⟩, ⟨8, 5, 28, [], []⟩,
   ⟨14, 1, 47, [], []⟩, ⟨4, 9, 41, [], []⟩, ⟨6, 13, 48, [], []⟩, ⟨2, 11, 20, [], []⟩, ⟨0, 15, 5, [], []⟩,
   ⟨10, 9, 17, [], []⟩, ⟨8, 11, 59, [], []⟩, ⟨14, 13, 41, [], []⟩, ⟨12, 15, 34, [], []⟩, ⟨6, 1, 13, [], []⟩,
   ⟨4, 3, 51, [], []⟩, ⟨2, 5, 4, [], []⟩, ⟨0, 7, 33, [], []⟩, ⟨8, 1, 52, [], []⟩, ⟨14, 5, 23, [], []⟩,
   ⟨12, 3, 18, [], []⟩, ⟨10, 7, 49, [], []⟩, ⟨4, 15, 55, [], []⟩, ⟨6, 11, 10, [], []⟩, ⟨2, 13, 19, [], []⟩,
   ⟨0, 9, 38, [], []⟩, ⟨14, 15, 37, [k 9, t 1], [k 10, c 12]⟩, ⟨12, 13, 22, [k 7], [k 8, t 0]⟩,
   ⟨10, 11, 17, [k 5], [k 6]⟩, ⟨8, 9, 8, [k 3], [k 4]⟩, ⟨6, 7, 47, [k 1], [k 2]⟩, ⟨4, 5, 8, [k 16], [k 0]⟩,
   ⟨2, 3, 13, [k 14], [k 15]⟩, ⟨0, 1, 24, [k 12], [k 13]⟩, ⟨12, 7, 20, [], []⟩, ⟨10, 3, 37, [], []⟩,
   ⟨8, 5, 31, [], []⟩, ⟨14, 1, 23, [], []⟩, ⟨4, 9, 52, [], []⟩, ⟨6, 13, 35, [], []⟩, ⟨2, 11, 48, [], []⟩,
   ⟨0, 15, 9, [], []⟩, ⟨10, 9, 25, [], []⟩, ⟨8, 11, 44, [], []⟩, ⟨14, 13, 42, [], []⟩, ⟨12, 15, 19, [], []⟩,
   ⟨6, 1, 46, [], []⟩, ⟨4, 3, 47, [], []⟩, ⟨2, 5, 44, [], []⟩, ⟨0, 7, 31, [], []⟩, ⟨8, 1, 41, [], []⟩,
   ⟨14, 5, 42, [], []⟩, ⟨12, 3, 53, [], []⟩, ⟨10, 7, 4, [], []⟩, ⟨4, 15, 51, [], []⟩, ⟨6, 11, 56, [], []⟩,
   ⟨2, 13, 34, [], []⟩, ⟨0, 9, 16, [], []⟩, ⟨14, 15, 30, [k 8, t 0], [k 9, c 11]⟩,
   ⟨12, 13, 44, [k 6], [k 7, t 2]⟩, ⟨10, 11, 47, [k 4], [k 5]⟩, ⟨8, 9, 12, [k 2], [k 3]⟩,
   ⟨6, 7, 31, [k 0], [k 1]⟩, ⟨4, 5, 37, [k 15], [k 16]⟩, ⟨2, 3, 9, [k 13], [k 14]⟩, ⟨0, 1, 41, [k 11], [k 12]⟩,
   ⟨12, 7, 25, [], []⟩, ⟨10, 3, 16, [], []⟩, ⟨8, 5, 28, [], []⟩, ⟨14, 1, 47, [], []⟩, ⟨4, 9, 41, [], []⟩,
   ⟨6, 13, 48, [], []⟩, ⟨2, 11, 20, [], []⟩, ⟨0, 15, 5, [], []⟩, ⟨10, 9, 17, [], []⟩, ⟨8, 11, 59, [], []⟩,
   ⟨14, 13, 41, [], []⟩, ⟨12, 15, 34, [], []⟩, ⟨6, 1, 13, [], []⟩, ⟨4, 3, 51, [], []⟩, ⟨2, 5, 4, [], []⟩,
   ⟨0, 7, 33, [], []⟩, ⟨8, 1, 52, [], []⟩, ⟨14, 5, 23, [], []⟩, ⟨12, 3, 18, [], []⟩, ⟨10, 7, 49, [], []⟩,
   ⟨4, 15, 55, [], []⟩, ⟨6, 11, 10, [], []⟩, ⟨2, 13, 19, [], []⟩, ⟨0, 9, 38, [], []⟩,
   ⟨14, 15, 37, [k 7, t 2], [k 8, c 10]⟩, ⟨12, 13, 22, [k 5], [k 6, t 1]⟩, ⟨10, 11, 17, [k 3], [k 4]⟩,
   ⟨8, 9, 8, [k 1], [k 2]⟩, ⟨6, 7, 47, [k 16], [k 0]⟩, ⟨4, 5, 8, [k 14], [k 15]⟩, ⟨2, 3, 13, [k 12], [k 13]⟩,
   ⟨0, 1, 24, [k 10], [k 11]⟩, ⟨12, 7, 20, [], []⟩, ⟨10, 3, 37, [], []⟩, ⟨8, 5, 31, [], []⟩,
   ⟨14, 1, 23, [], []⟩, ⟨4, 9, 52, [], []⟩, ⟨6, 13, 35, [], []⟩, ⟨2, 11, 48, [], []⟩, ⟨0, 15, 9, [], []⟩,
   ⟨10, 9, 25, [], []⟩, ⟨8, 11, 44, [], []⟩, ⟨14, 13, 42, [], []⟩, ⟨12, 15, 19, [], []⟩, ⟨6, 1, 46, [], []⟩,
   ⟨4, 3, 47, [], []⟩, ⟨2, 5, 44, [], []⟩, ⟨0, 7, 31, [], []⟩, ⟨8, 1, 41, [], []⟩, ⟨14, 5, 42, [], []⟩,
   ⟨12, 3, 53, [], []⟩, ⟨10, 7, 4, [], []⟩, ⟨4, 15, 51, [], []⟩, ⟨6, 11, 56, [], []⟩, ⟨2, 13, 34, [], []⟩,
   ⟨0, 9, 16, [], []⟩, ⟨14, 15, 30, [k 6, t 1], [k 7, c 9]⟩, ⟨12, 13, 44, [k 4], [k 5, t 0]⟩,
   ⟨10, 11, 47, [k 2], [k 3]⟩, ⟨8, 9, 12, [k 0], [k 1]⟩, ⟨6, 7, 31, [k 15], [k 16]⟩,
   ⟨4, 5, 37, [k 13], [k 14]⟩, ⟨2, 3, 9, [k 11], [k 12]⟩, ⟨0, 1, 41, [k 9], [k 10]⟩, ⟨12, 7, 25, [], []⟩,
   ⟨10, 3, 16, [], []⟩, ⟨8, 5, 28, [], []⟩, ⟨14, 1, 47, [], []⟩, ⟨4, 9, 41, [], []⟩, ⟨6, 13, 48, [], []⟩,
   ⟨2, 11, 20, [], []⟩, ⟨0, 15, 5, [], []⟩, ⟨10, 9, 17, [], []⟩, ⟨8, 11, 59, [], []⟩, ⟨14, 13, 41, [], []⟩,
   ⟨12, 15, 34, [], []⟩, ⟨6, 1, 13, [], []⟩, ⟨4, 3, 51, [], []⟩, ⟨2, 5, 4, [], []⟩, ⟨0, 7, 33, [], []⟩,
   ⟨8, 1, 52, [], []⟩, ⟨14, 5, 23, [], []⟩, ⟨12, 3, 18, [], []⟩, ⟨10, 7, 49, [], []⟩, ⟨4, 15, 55, [], []⟩,
   ⟨6, 11, 10, [], []⟩, ⟨2, 13, 19, [], []⟩, ⟨0, 9, 38, [], []⟩, ⟨14, 15, 37, [k 5, t 0], [k 6, c 8]⟩,
   ⟨12, 13, 22, [k 3], [k 4, t 2]⟩, ⟨10, 11, 17, [k 1], [k 2]⟩, ⟨8, 9, 8, [k 16], [k 0]⟩,
   ⟨6, 7, 47, [k 14], [k 15]⟩, ⟨4, 5, 8, [k 12], [k 13]⟩, ⟨2, 3, 13, [k 10], [k 11]⟩, ⟨0, 1, 24, [k 8], [k 9]⟩,
   ⟨12, 7, 20, [], []⟩, ⟨10, 3, 37, [], []⟩, ⟨8, 5, 31, [], []⟩, ⟨14, 1, 23, [], []⟩, ⟨4, 9, 52, [], []⟩,
   ⟨6, 13, 35, [], []⟩, ⟨2, 11, 48, [], []⟩, ⟨0, 15, 9, [], []⟩, ⟨10, 9, 25, [], []⟩, ⟨8, 11, 44, [], []⟩,
   ⟨14, 13, 42, [], []⟩, ⟨12, 15, 19, [], []⟩, ⟨6, 1, 46, [], []⟩, ⟨4, 3, 47, [], []⟩, ⟨2, 5, 44, [], []⟩,
   ⟨0, 7, 31, [], []⟩, ⟨8, 1, 41, [], []⟩, ⟨14, 5, 42, [], []⟩, ⟨12, 3, 53, [], []⟩, ⟨10, 7, 4, [], []⟩,
   ⟨4, 15, 51, [], []⟩, ⟨6, 11, 56, [], []⟩, ⟨2, 13, 34, [], []⟩, ⟨0, 9, 16, [], []⟩,
   ⟨14, 15, 30, [k 4, t 2], [k 5, c 7]⟩, ⟨12, 13, 44, [k 2], [k 3, t 1]⟩, ⟨10, 11, 47, [k 0], [k 1]⟩,
   ⟨8, 9, 12, [k 15], [k 16]⟩, ⟨6, 7, 31, [k 13], [k 14]⟩, ⟨4, 5, 37, [k 11], [k 12]⟩,
   ⟨2, 3, 9, [k 9], [k 10]⟩, ⟨0, 1, 41, [k 7], [k 8]⟩, ⟨12, 7, 25, [], []⟩, ⟨10, 3, 16, [], []⟩,
   ⟨8, 5, 28, [], []⟩, ⟨14, 1, 47, [], []⟩, ⟨4, 9, 41, [], []⟩, ⟨6, 13, 48, [], []⟩, ⟨2, 11, 20, [], []⟩,
   ⟨0, 15, 5, [], []⟩, ⟨10, 9, 17, [], []⟩, ⟨8, 11, 59, [], []⟩, ⟨14, 13, 41, [], []⟩, ⟨12, 15, 34, [], []⟩,
   ⟨6, 1, 13, [], []⟩, ⟨4, 3, 51, [], []⟩, ⟨2, 5, 4, [], []⟩, ⟨0, 7, 33, [], []⟩, ⟨8, 1, 52, [], []⟩,
   ⟨14, 5, 23, [], []⟩, ⟨12, 3, 18, [], []⟩, ⟨10, 7, 49, [], []⟩, ⟨4, 15, 55, [], []⟩, ⟨6, 11, 10, [], []⟩,
   ⟨2, 13, 19, [], []⟩, ⟨0, 9, 38, [], []⟩, ⟨14, 15, 37, [k 3, t 1], [k 4, c 6]⟩,
   ⟨12, 13, 22, [k 1], [k 2, t 0]⟩, ⟨10, 11, 17, [k 16], [k 0]⟩, ⟨8, 9, 8, [k 14], [k 15]⟩,
   ⟨6, 7, 47, [k 12], [k 13]⟩, ⟨4, 5, 8, [k 10], [k 11]⟩, ⟨2, 3, 13, [k 8], [k 9]⟩, ⟨0, 1, 24, [k 6], [k 7]⟩,
   ⟨12, 7, 20, [], []⟩, ⟨10, 3, 37, [], []⟩, ⟨8, 5, 31, [], []⟩, ⟨14, 1, 23, [], []⟩, ⟨4, 9, 52, [], []⟩,
   ⟨6, 13, 35, [], []⟩, ⟨2, 11, 48, [], []⟩, ⟨0, 15, 9, [], []⟩, ⟨10, 9, 25, [], []⟩, ⟨8, 11, 44, [], []⟩,
   ⟨14, 13, 42, [], []⟩, ⟨12, 15, 19, [], []⟩, ⟨6, 1, 46, [], []⟩, ⟨4, 3, 47, [], []⟩, ⟨2, 5, 44, [], []⟩,
   ⟨0, 7, 31, [], []⟩, ⟨8, 1, 41, [], []⟩, ⟨14, 5, 42, [], []⟩, ⟨12, 3, 53, [], []⟩, ⟨10, 7, 4, [], []⟩,
   ⟨4, 15, 51, [], []⟩, ⟨6, 11, 56, [], []⟩, ⟨2, 13, 34, [], []⟩, ⟨0, 9, 16, [], []⟩,
   ⟨14, 15, 30, [k 2, t 0], [k 3, c 5]⟩, ⟨12, 13, 44, [k 0], [k 1, t 2]⟩, ⟨10, 11, 47, [k 15], [k 16]⟩,
   ⟨8, 9, 12, [k 13], [k 14]⟩, ⟨6, 7, 31, [k 11], [k 12]⟩, ⟨4, 5, 37, [k 9], [k 10]⟩, ⟨2, 3, 9, [k 7], [k 8]⟩,
   ⟨0, 1, 41, [k 5], [k 6]⟩, ⟨12, 7, 25, [], []⟩, ⟨10, 3, 16, [], []⟩, ⟨8, 5, 28, [], []⟩, ⟨14, 1, 47, [], []⟩,
   ⟨4, 9, 41, [], []⟩, ⟨6, 13, 48, [], []⟩, ⟨2, 11, 20, [], []⟩, ⟨0, 15, 5, [], []⟩, ⟨10, 9, 17, [], []⟩,
   ⟨8, 11, 59, [], []⟩, ⟨14, 13, 41, [], []⟩, ⟨12, 15, 34, [], []⟩, ⟨6, 1, 13, [], []⟩, ⟨4, 3, 51, [], []⟩,
   ⟨2, 5, 4, [], []⟩, ⟨0, 7, 33, [], []⟩, ⟨8, 1, 52, [], []⟩, ⟨14, 5, 23, [], []⟩, ⟨12, 3, 18, [], []⟩,
   ⟨10, 7, 49, [], []⟩, ⟨4, 15, 55, [], []⟩, ⟨6, 11, 10, [], []⟩, ⟨2, 13, 19, [], []⟩, ⟨0, 9, 38, [], []⟩,
   ⟨14, 15, 37, [k 1, t 2], [k 2, c 4]⟩, ⟨12, 13, 22, [k 16], [k 0, t 1]⟩, ⟨10, 11, 17, [k 14], [k 15]⟩,
   ⟨8, 9, 8, [k 12], [k 13]⟩, ⟨6, 7, 47, [k 10], [k 11]⟩, ⟨4, 5, 8, [k 8], [k 9]⟩, ⟨2, 3, 13, [k 6], [k 7]⟩,
   ⟨0, 1, 24, [k 4], [k 5]⟩, ⟨12, 7, 20, [], []⟩, ⟨10, 3, 37, [], []⟩, ⟨8, 5, 31, [], []⟩, ⟨14, 1, 23, [], []⟩,
   ⟨4, 9, 52, [], []⟩, ⟨6, 13, 35, [], []⟩, ⟨2, 11, 48, [], []⟩, ⟨0, 15, 9, [], []⟩, ⟨10, 9, 25, [], []⟩,
   ⟨8, 11, 44, [], []⟩, ⟨14, 13, 42, [], []⟩, ⟨12, 15, 19, [], []⟩, ⟨6, 1, 46, [], []⟩, ⟨4, 3, 47, [], []⟩,
   ⟨2, 5, 44, [], []⟩, ⟨0, 7, 31, [], []⟩, ⟨8, 1, 41, [], []⟩, ⟨14, 5, 42, [], []⟩, ⟨12, 3, 53, [], []⟩,
   ⟨10, 7, 4, [], []⟩, ⟨4, 15, 51, [], []⟩, ⟨6, 11, 56, [], []⟩, ⟨2, 13, 34, [], []⟩, ⟨0, 9, 16, [], []⟩,
   ⟨14, 15, 30, [k 0, t 1], [k 1, c 3]⟩, ⟨12, 13, 44, [k 15], [k 16, t 0]⟩, ⟨10, 11, 47, [k 13], [k 14]⟩,
   ⟨8, 9, 12, [k 11], [k 12]⟩, ⟨6, 7, 31, [k 9], [k 10]⟩, ⟨4, 5, 37, [k 7], [k 8]⟩, ⟨2, 3, 9, [k 5], [k 6]⟩,
   ⟨0, 1, 41, [k 3], [k 4]⟩, ⟨12, 7, 25, [], []⟩, ⟨10, 3, 16, [], []⟩, ⟨8, 5, 28, [], []⟩, ⟨14, 1, 47, [], []⟩,
   ⟨4, 9, 41, [], []⟩, ⟨6, 13, 48, [], []⟩, ⟨2, 11, 20, [], []⟩, ⟨0, 15, 5, [], []⟩, ⟨10, 9, 17, [], []⟩,
   ⟨8, 11, 59, [], []⟩, ⟨14, 13, 41, [], []⟩, ⟨12, 15, 34, [], []⟩, ⟨6, 1, 13, [], []⟩, ⟨4, 3, 51, [], []⟩,
   ⟨2, 5, 4, [], []⟩, ⟨0, 7, 33, [], []⟩, ⟨8, 1, 52, [], []⟩, ⟨14, 5, 23, [], []⟩, ⟨12, 3, 18, [], []⟩,
   ⟨10, 7, 49, [], []⟩, ⟨4, 15, 55, [], []⟩, ⟨6, 11, 10, [], []⟩, ⟨2, 13, 19, [], []⟩, ⟨0, 9, 38, [], []⟩,
   ⟨14, 15, 37, [k 16, t 0], [k 0, c 2]⟩, ⟨12, 13, 22, [k 14], [k 15, t 2]⟩, ⟨10, 11, 17, [k 12], [k 13]⟩,
   ⟨8, 9, 8, [k 10], [k 11]⟩, ⟨6, 7, 47, [k 8], [k 9]⟩, ⟨4, 5, 8, [k 6], [k 7]⟩, ⟨2, 3, 13, [k 4], [k 5]⟩,
   ⟨0, 1, 24, [k 2], [k 3]⟩, ⟨12, 7, 20, [], []⟩, ⟨10, 3, 37, [], []⟩, ⟨8, 5, 31, [], []⟩, ⟨14, 1, 23, [], []⟩,
   ⟨4, 9, 52, [], []⟩, ⟨6, 13, 35, [], []⟩, ⟨2, 11, 48, [], []⟩, ⟨0, 15, 9, [], []⟩, ⟨10, 9, 25, [], []⟩,
   ⟨8, 11, 44, [], []⟩, ⟨14, 13, 42, [], []⟩, ⟨12, 15, 19, [], []⟩, ⟨6, 1, 46, [], []⟩, ⟨4, 3, 47, [], []⟩,
   ⟨2, 5, 44, [], []⟩, ⟨0, 7, 31, [], []⟩, ⟨8, 1, 41, [], []⟩, ⟨14, 5, 42, [], []⟩, ⟨12, 3, 53, [], []⟩,
   ⟨10, 7, 4, [], []⟩, ⟨4, 15, 51, [], []⟩, ⟨6, 11, 56, [], []⟩, ⟨2, 13, 34, [], []⟩, ⟨0, 9, 16, [], []⟩,
   ⟨14, 15, 30, [k 15, t 2], [k 16, c 1]⟩, ⟨12, 13, 44, [k 13], [k 14, t 1]⟩, ⟨10, 11, 47, [k 11], [k 12]⟩,
   ⟨8, 9, 12, [k 9], [k 10]⟩, ⟨6, 7, 31, [k 7], [k 8]⟩, ⟨4, 5, 37, [k 5], [k 6]⟩, ⟨2, 3, 9, [k 3], [k 4]⟩,
   ⟨0, 1, 41, [k 1], [k 2]⟩, ⟨12, 7, 25, [], []⟩, ⟨10, 3, 16, [], []⟩, ⟨8, 5, 28, [], []⟩, ⟨14, 1, 47, [], []⟩,
   ⟨4, 9, 41, [], []⟩, ⟨6, 13, 48, [], []⟩, ⟨2, 11, 20, [], []⟩, ⟨0, 15, 5, [], []⟩, ⟨10, 9, 17, [], []⟩,
   ⟨8, 11, 59, [], []⟩, ⟨14, 13, 41, [], []⟩, ⟨12, 15, 34, [], []⟩, ⟨6, 1, 13, [], []⟩, ⟨4, 3, 51, [], []⟩,
   ⟨2, 5, 4, [], []⟩, ⟨0, 7, 33, [], []⟩, ⟨8, 1, 52, [], []⟩, ⟨14, 5, 23, [], []⟩, ⟨12, 3, 18, [], []⟩,
   ⟨10, 7, 49, [], []⟩, ⟨4, 15, 55, [], []⟩, ⟨6, 11, 10, [], []⟩, ⟨2, 13, 19, [], []⟩, ⟨0, 9, 38, [], []⟩,
   ⟨14, 15, 37, [k 14, t 1], [k 15]⟩, ⟨12, 13, 22, [k 12], [k 13, t 0]⟩, ⟨10, 11, 17, [k 10], [k 11]⟩,
   ⟨8, 9, 8, [k 8], [k 9]⟩, ⟨6, 7, 47, [k 6], [k 7]⟩, ⟨4, 5, 8, [k 4], [k 5]⟩, ⟨2, 3, 13, [k 2], [k 3]⟩,
   ⟨0, 1, 24, [k 0], [k 1]⟩]

/-- What `threefishEncrypt1024` adds at its end and `threefishDecrypt1024` subtracts at its start. -/
def last1024 : List (List Summand) :=
  [[k 3], [k 4], [k 5], [k 6], [k 7], [k 8], [k 9], [k 10], [k 11], [k 12], [k 13], [k 14], [k 15],
   [k 16, t 2], [k 0, t 0], [k 1, c 20]]

end Code

/-! ### The functions -/

/-- `threefishEncrypt256` and its siblings: load the words, the lines, the last additions. -/
def encryptWords (lines : List Line) (last : List (List Summand)) (keyCtx : ThreefishKey) (input : List Word) :
    List Word :=
  List.zipWith (· + ·) (lines.foldl (Line.encrypt keyCtx.key keyCtx.tweak) (input.take last.length))
    (last.map (sum keyCtx.key keyCtx.tweak))

/-- `threefishDecrypt256` and its siblings. -/
def decryptWords (lines : List Line) (last : List (List Summand)) (keyCtx : ThreefishKey) (input : List Word) :
    List Word :=
  lines.foldl (Line.decrypt keyCtx.key keyCtx.tweak)
    (List.zipWith (· - ·) (input.take last.length) (last.map (sum keyCtx.key keyCtx.tweak)))

def threefishEncrypt256 := encryptWords encryptLines256 last256
def threefishEncrypt512 := encryptWords encryptLines512 last512
def threefishEncrypt1024 := encryptWords encryptLines1024 last1024
def threefishDecrypt256 := decryptWords decryptLines256 last256
def threefishDecrypt512 := decryptWords decryptLines512 last512
def threefishDecrypt1024 := decryptWords decryptLines1024 last1024

def threefishEncryptBlockWords (keyCtx : ThreefishKey) (input : List Word) : List Word :=
  match keyCtx.stateSize with
  | .Skein256 => threefishEncrypt256 keyCtx input
  | .Skein512 => threefishEncrypt512 keyCtx input
  | .Skein1024 => threefishEncrypt1024 keyCtx input

def threefishDecryptBlockWords (keyCtx : ThreefishKey) (input : List Word) : List Word :=
  match keyCtx.stateSize with
  | .Skein256 => threefishDecrypt256 keyCtx input
  | .Skein512 => threefishDecrypt512 keyCtx input
  | .Skein1024 => threefishDecrypt1024 keyCtx input

/-- `threefishEncryptBlockBytes`: the bytes to words and back. -/
def threefishEncryptBlockBytes (keyCtx : ThreefishKey) (input : List Byte) : List Byte :=
  bytesOf (threefishEncryptBlockWords keyCtx (wordsOf (input.take keyCtx.stateSize.bytes)))

def threefishDecryptBlockBytes (keyCtx : ThreefishKey) (input : List Byte) : List Byte :=
  bytesOf (threefishDecryptBlockWords keyCtx (wordsOf (input.take keyCtx.stateSize.bytes)))

end ThreefishBlock

end Threefizer
