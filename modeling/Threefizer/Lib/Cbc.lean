/-
# Cipher block chaining

The mode over an arbitrary type of blocks: `encrypt` mixes each block with
the ciphertext block before it and enciphers the result, `decrypt` undoes it.
Neither notices where a message is cut, as long as the last ciphertext block
of one piece is the chain of the next (`encrypt_append`, `decrypt_append`),
and if the cipher and the mixing can be undone on the blocks of a set, so can
the mode (`decrypt_encrypt`, `encrypt_decrypt`). A block of the message
depends on its own ciphertext block and on the one before it
(`decrypt_eq_zipWith`).
-/
import Mathlib.Data.List.Basic
import Mathlib.Data.Set.Basic
import Mathlib.Tactic.Common

namespace Cbc

variable {α : Type*} (mix : α → α → α)

/-- The ciphertext of a message under the chain `c`. -/
def encrypt (E : α → α) : α → List α → List α
  | _, [] => []
  | c, b :: bs => E (mix b c) :: encrypt E (E (mix b c)) bs

/-- The message of a ciphertext under the chain `c`. -/
def decrypt (D : α → α) : α → List α → List α
  | _, [] => []
  | c, b :: bs => mix (D b) c :: decrypt D b bs

/-- The chain after a ciphertext: its last block. -/
def chain (c : α) (bs : List α) : α := bs.getLastD c

@[simp] theorem chain_nil (c : α) : chain c [] = c := rfl

@[simp] theorem chain_cons (c b : α) (bs : List α) : chain c (b :: bs) = chain b bs := by
  cases bs <;> rfl

theorem chain_append (c : α) (bs bs' : List α) : chain c (bs ++ bs') = chain (chain c bs) bs' := by
  induction bs generalizing c with
  | nil => rfl
  | cons b bs ih => rw [List.cons_append, chain_cons, chain_cons, ih]

theorem chain_concat (c b : α) (bs : List α) : chain c (bs ++ [b]) = b := by
  rw [chain_append, chain_cons, chain_nil]

@[simp] theorem length_encrypt (E : α → α) : ∀ (c : α) (bs : List α),
    (encrypt mix E c bs).length = bs.length
  | _, [] => rfl
  | _, b :: bs => by simp [encrypt, length_encrypt E]

@[simp] theorem length_decrypt (D : α → α) : ∀ (c : α) (bs : List α),
    (decrypt mix D c bs).length = bs.length
  | _, [] => rfl
  | _, b :: bs => by simp [decrypt, length_decrypt D]

/-- A message enciphered in two pieces. -/
theorem encrypt_append (E : α → α) : ∀ (c : α) (bs bs' : List α),
    encrypt mix E c (bs ++ bs') =
      encrypt mix E c bs ++ encrypt mix E (chain c (encrypt mix E c bs)) bs'
  | _, [], _ => rfl
  | c, b :: bs, bs' => by
    rw [List.cons_append, encrypt, encrypt_append E, encrypt, List.cons_append, chain_cons]

/-- A ciphertext deciphered in two pieces. -/
theorem decrypt_append (D : α → α) : ∀ (c : α) (bs bs' : List α),
    decrypt mix D c (bs ++ bs') = decrypt mix D c bs ++ decrypt mix D (chain c bs) bs'
  | _, [], _ => rfl
  | c, b :: bs, bs' => by
    rw [List.cons_append, decrypt, decrypt_append D, decrypt, List.cons_append, chain_cons]

/-- Each block of the message is made of its own ciphertext block and of the
one before it. -/
theorem decrypt_eq_zipWith (D : α → α) : ∀ (c : α) (bs : List α),
    decrypt mix D c bs = List.zipWith (fun b p => mix (D b) p) bs (c :: bs)
  | _, [] => rfl
  | _, b :: bs => by rw [decrypt, decrypt_eq_zipWith D b bs, List.zipWith_cons_cons]

section Closed

variable {mix} {E D : α → α} {S : Set α} (hmix : ∀ a ∈ S, ∀ b ∈ S, mix a b ∈ S)
include hmix

/-- Blocks stay in a set the cipher and the mixing stay in. -/
theorem encrypt_mem (hE : ∀ a ∈ S, E a ∈ S) : ∀ (c : α) (bs : List α), c ∈ S → (∀ b ∈ bs, b ∈ S) →
    ∀ b ∈ encrypt mix E c bs, b ∈ S
  | _, [], _, _, _, hb => by cases hb
  | c, x :: xs, hc, hbs, b, hb => by
    have hx := hE _ (hmix x (hbs x List.mem_cons_self) c hc)
    rcases List.mem_cons.mp hb with rfl | hb
    · exact hx
    · exact encrypt_mem hE _ xs hx (fun y hy => hbs y (List.mem_cons_of_mem _ hy)) b hb

theorem decrypt_mem (hD : ∀ a ∈ S, D a ∈ S) : ∀ (c : α) (bs : List α), c ∈ S → (∀ b ∈ bs, b ∈ S) →
    ∀ b ∈ decrypt mix D c bs, b ∈ S
  | _, [], _, _, _, hb => by cases hb
  | c, x :: xs, hc, hbs, b, hb => by
    have hx := hbs x List.mem_cons_self
    rcases List.mem_cons.mp hb with rfl | hb
    · exact hmix _ (hD x hx) c hc
    · exact decrypt_mem hD _ xs hx (fun y hy => hbs y (List.mem_cons_of_mem _ hy)) b hb

omit hmix in
theorem chain_mem {c : α} {bs : List α} (hc : c ∈ S) (hbs : ∀ b ∈ bs, b ∈ S) : chain c bs ∈ S := by
  induction bs generalizing c with
  | nil => exact hc
  | cons b bs ih =>
    rw [chain_cons]
    exact ih (hbs b List.mem_cons_self) fun y hy => hbs y (List.mem_cons_of_mem _ hy)

/-- Ciphers that agree on the blocks make the same ciphertext. -/
theorem encrypt_congr {E' : α → α} (hE : ∀ a ∈ S, E a ∈ S) (h : ∀ a ∈ S, E' a = E a) :
    ∀ (c : α) (bs : List α), c ∈ S → (∀ b ∈ bs, b ∈ S) → encrypt mix E' c bs = encrypt mix E c bs
  | _, [], _, _ => rfl
  | c, b :: bs, hc, hbs => by
    have hm := hmix b (hbs b List.mem_cons_self) c hc
    have ih := encrypt_congr hE h _ bs (hE _ hm) fun y hy => hbs y (List.mem_cons_of_mem _ hy)
    rw [encrypt, encrypt, h _ hm, ih]

omit hmix in
theorem decrypt_congr {D' : α → α} (h : ∀ a ∈ S, D' a = D a) :
    ∀ (c : α) (bs : List α), (∀ b ∈ bs, b ∈ S) → decrypt mix D' c bs = decrypt mix D c bs
  | _, [], _ => rfl
  | c, b :: bs, hbs => by
    have ih := decrypt_congr h b bs fun y hy => hbs y (List.mem_cons_of_mem _ hy)
    rw [decrypt, decrypt, h b (hbs b List.mem_cons_self), ih]

variable (hcancel : ∀ a ∈ S, ∀ b ∈ S, mix (mix a b) b = a)
include hcancel

/-- Deciphering undoes enciphering. -/
theorem decrypt_encrypt (hE : ∀ a ∈ S, E a ∈ S) (hDE : ∀ a ∈ S, D (E a) = a) :
    ∀ (c : α) (bs : List α), c ∈ S → (∀ b ∈ bs, b ∈ S) →
      decrypt mix D c (encrypt mix E c bs) = bs
  | _, [], _, _ => rfl
  | c, b :: bs, hc, hbs => by
    have hb := hbs b List.mem_cons_self
    have hm := hmix b hb c hc
    have ih := decrypt_encrypt hE hDE _ bs (hE _ hm) fun y hy => hbs y (List.mem_cons_of_mem _ hy)
    calc decrypt mix D c (encrypt mix E c (b :: bs))
        = mix (D (E (mix b c))) c :: decrypt mix D (E (mix b c)) (encrypt mix E (E (mix b c)) bs) := rfl
      _ = mix (mix b c) c :: bs := by rw [hDE _ hm, ih]
      _ = b :: bs := by rw [hcancel b hb c hc]

omit hmix in
/-- Enciphering undoes deciphering. -/
theorem encrypt_decrypt (hD : ∀ a ∈ S, D a ∈ S) (hED : ∀ a ∈ S, E (D a) = a) :
    ∀ (c : α) (bs : List α), c ∈ S → (∀ b ∈ bs, b ∈ S) →
      encrypt mix E c (decrypt mix D c bs) = bs
  | _, [], _, _ => rfl
  | c, b :: bs, hc, hbs => by
    have hb := hbs b List.mem_cons_self
    have hx : E (mix (mix (D b) c) c) = b := by rw [hcancel _ (hD b hb) c hc, hED b hb]
    have ih := encrypt_decrypt hD hED _ bs hb fun y hy => hbs y (List.mem_cons_of_mem _ hy)
    calc encrypt mix E c (decrypt mix D c (b :: bs))
        = E (mix (mix (D b) c) c) :: encrypt mix E (E (mix (mix (D b) c) c)) (decrypt mix D b bs) := rfl
      _ = b :: encrypt mix E b (decrypt mix D b bs) := by rw [hx]
      _ = b :: bs := by rw [ih]

end Closed

end Cbc
