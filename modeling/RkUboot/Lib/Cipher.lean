import Mathlib.Data.List.Basic

set_option autoImplicit false

/-! # Stream ciphers

A stream cipher is a generator of bytes: a state and a function that gives the next byte and the
next state. To encrypt is to combine the text with these bytes by exclusive or, so to encrypt twice
from the same state gives the text back. That stays true if a text is cut into pieces and each piece
is encrypted on its own, as long as both sides cut it in the same way. The last section has RC4 as
one such generator. -/

namespace Cipher

/-! ## Encryption -/

section Stream

variable {σ : Type} (next : σ → UInt8 × σ)

/-- Combine a text with the bytes of the generator. -/
def encrypt : σ → List UInt8 → List UInt8
  | _, [] => []
  | st, b :: bs => (b ^^^ (next st).1) :: encrypt (next st).2 bs

@[simp] theorem length_encrypt (st : σ) (bs : List UInt8) :
    (encrypt next st bs).length = bs.length := by
  induction bs generalizing st with
  | nil => rfl
  | cons b bs ih => rw [encrypt, List.length_cons, List.length_cons, ih]

/-- The second time gives the text back: the generator does not look at it. -/
theorem encrypt_encrypt (st : σ) (bs : List UInt8) :
    encrypt next st (encrypt next st bs) = bs := by
  induction bs generalizing st with
  | nil => rfl
  | cons b bs ih =>
    rw [encrypt, encrypt, ih, UInt8.xor_assoc, UInt8.xor_self, UInt8.xor_zero]

end Stream

/-! ## Pieces -/

section Pieces

variable {α : Type} (f : List α → List α) (n : Nat)

/-- Apply `f` to each of the first `k` pieces of `n` elements. -/
def pieces : Nat → List α → List α
  | 0, bs => bs
  | k + 1, bs => f (bs.take n) ++ pieces k (bs.drop n)

variable {f n}

theorem length_pieces (hlen : ∀ bs, (f bs).length = bs.length) (k : Nat) (bs : List α) :
    (pieces f n k bs).length = bs.length := by
  induction k generalizing bs with
  | zero => rfl
  | succ k ih =>
    rw [pieces, List.length_append, hlen, ih, List.length_take, List.length_drop]
    omega

/-- A function that undoes itself does so piece by piece. -/
theorem pieces_pieces (hlen : ∀ bs, (f bs).length = bs.length) (hinv : ∀ bs, f (f bs) = bs) (k : Nat)
    (bs : List α) : pieces f n k (pieces f n k bs) = bs := by
  induction k generalizing bs with
  | zero => rfl
  | succ k ih =>
    have hfirst : (f (bs.take n) ++ pieces f n k (bs.drop n)).take n = f (bs.take n) := by
      by_cases hn : n ≤ bs.length
      · exact List.take_left' (by rw [hlen, List.length_take]; omega)
      · have hnil : pieces f n k (bs.drop n) = [] := by
          rw [← List.length_eq_zero_iff, length_pieces hlen, List.length_drop]
          omega
        rw [hnil, List.append_nil, List.take_of_length_le]
        rw [hlen, List.length_take]
        omega
    have hrest : (f (bs.take n) ++ pieces f n k (bs.drop n)).drop n = pieces f n k (bs.drop n) := by
      have := List.take_append_drop n (f (bs.take n) ++ pieces f n k (bs.drop n))
      rw [hfirst] at this
      exact List.append_cancel_left this
    rw [pieces, pieces, hfirst, hrest, hinv, ih, List.take_append_drop]

/-- Piece `i` of the result is `f` of piece `i`. -/
theorem pieces_slice (hlen : ∀ bs, (f bs).length = bs.length) (k : Nat) {bs : List α}
    (hbs : n * k ≤ bs.length) {i : Nat} (hi : i < k) :
    ((pieces f n k bs).drop (n * i)).take n = f ((bs.drop (n * i)).take n) := by
  induction k generalizing bs i with
  | zero => cases hi
  | succ k ih =>
    rw [Nat.mul_succ] at hbs
    have hfirst : (f (bs.take n)).length = n := by
      rw [hlen, List.length_take]
      omega
    rw [pieces]
    cases i with
    | zero =>
      rw [Nat.mul_zero, List.drop_zero, List.drop_zero, List.take_left' hfirst]
    | succ i =>
      have hdrop : (f (bs.take n) ++ pieces f n k (bs.drop n)).drop (n * (i + 1))
          = (pieces f n k (bs.drop n)).drop (n * i) := by
        rw [Nat.mul_succ, Nat.add_comm, ← List.drop_drop, List.drop_left' hfirst]
      rw [hdrop, ih (by rw [List.length_drop]; omega) (by omega), List.drop_drop, Nat.mul_succ,
        Nat.add_comm]

end Pieces

/-! ## RC4 -/

/-- The permutation and the two counters. -/
structure Rc4 where
  s : List UInt8
  i : Nat
  j : Nat

namespace Rc4

def swap (s : List UInt8) (i j : Nat) : List UInt8 := (s.set i (s.getD j 0)).set j (s.getD i 0)

/-- The next byte. -/
def next (st : Rc4) : UInt8 × Rc4 :=
  let i := (st.i + 1) % 256
  let j := (st.j + (st.s.getD i 0).toNat) % 256
  let s := swap st.s i j
  (s.getD (((s.getD i 0).toNat + (s.getD j 0).toNat) % 256) 0, ⟨s, i, j⟩)

/-- The key schedule for a key of 16 bytes, `k` rounds to go from round `i`. -/
def schedule (key : List UInt8) : Nat → Nat → Nat → List UInt8 → List UInt8
  | 0, _, _, s => s
  | k + 1, i, j, s =>
    let j := (j + (s.getD i 0).toNat + (key.getD (i % 16) 0).toNat) % 256
    schedule key k (i + 1) j (swap s i j)

def start (key : List UInt8) : Rc4 :=
  ⟨schedule key 256 0 0 ((List.range 256).map UInt8.ofNat), 0, 0⟩

end Rc4

/-- RC4 with a key of 16 bytes. -/
def rc4 (key bs : List UInt8) : List UInt8 := encrypt Rc4.next (Rc4.start key) bs

@[simp] theorem length_rc4 (key bs : List UInt8) : (rc4 key bs).length = bs.length :=
  length_encrypt ..

theorem rc4_rc4 (key bs : List UInt8) : rc4 key (rc4 key bs) = bs := encrypt_encrypt ..

end Cipher
