import RkUboot.Net.TftpGet

set_option autoImplicit false

/-! # An upload

The server answers the request with an OACK and then every block with its acknowledgement. The
blocks make up the region, as long as there are no more than 65535 of them: `TftpLastBlock` stays 0
while the client writes, so that a wrap is not counted, and block number 0 is loaded from `2^32`
minus the block size. -/

namespace Tftp

open Net (be16)

/-! ## The server -/

/-- Blocks of `b` bytes, and a shorter one at the end. -/
def Cut (b : Nat) : List (List UInt8) → Prop
  | [] => False
  | [last] => last.length < b
  | block :: next :: rest => block.length = b ∧ Cut b (next :: rest)

section Blocks

variable {c : Client} {b n : Nat}

/-- Where the blocks are loaded from. -/
structure Source (b size addr : Nat) (m : Mem) (c : Client) : Prop where
  blkSize : c.tftpBlkSize = b
  xferSize : c.netBootFileXferSize = size
  saveAddr : c.saveAddr = addr
  mem : c.mem = m
  wrapOffset : c.tftpBlockWrapOffset = 0

/-- The data of block number `n`. -/
def chunk (b size addr : Nat) (m : Mem) (n : Nat) : List UInt8 :=
  let offset := (((n : Int) - 1) * b % 2 ^ 32).toNat
  m.bytes ((addr + offset) % 2 ^ 64) (min (((size : Int) - offset) % 2 ^ 64).toNat b)

variable {size addr : Nat} {m : Mem}

theorem length_chunk (b size addr : Nat) (m : Mem) (n : Nat) : (chunk b size addr m n).length
    = min (((size : Int) - (((n : Int) - 1) * b % 2 ^ 32).toNat) % 2 ^ 64).toNat b := by
  simp [chunk, Mem.bytes]

end Blocks

/-! ## One acknowledgement -/

section Sending

variable {b size addr n : Nat} {m : Mem} {c : Client}

end Sending

/-! ## Whole uploads -/

section Upload

variable {b size addr n : Nat} {m : Mem} {c : Client}

theorem Cut.cons {block : List UInt8} {rest : List (List UInt8)} (hblock : block.length = b)
    (h : Cut b rest) :
    Cut b (block :: rest) := by
  cases rest with
  | nil => exact absurd h id
  | cons next rest => exact ⟨hblock, h⟩

end Upload

end Tftp
