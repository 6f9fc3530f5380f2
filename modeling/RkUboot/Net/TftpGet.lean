import RkUboot.Lib.Run
import RkUboot.Net.Tftp

set_option autoImplicit false

/-! # A download

The server sends a block when the one before was acknowledged, and the network delivers any block
that was sent, at any time and as often as it likes. A block has a 16-bit number; the client counts
the wraps by itself, at a number 0 that is not the one of the block before. What is loaded is the
file, as long as a block that arrives again is one of the current wrap, and not its first. -/

namespace Tftp

open Net (be16)

/-! ## Server and network -/

/-- Block `k` of the file, counted from 1. -/
def blockOf (file : List UInt8) (b k : Nat) : List UInt8 := (file.drop ((k - 1) * b)).take b

/-- The number of blocks; the last one is not full. -/
def blocks (file : List UInt8) (b : Nat) : Nat := file.length / b + 1

def dataPacket (file : List UInt8) (b k : Nat) (behind : List UInt8) : Received :=
  ⟨htons 3 ++ htons k ++ blockOf file b k, behind⟩

/-- One of the packets acknowledges block `k`. -/
def acks (k : Nat) (packets : List (List UInt8)) : Bool :=
  packets.any fun p => decide (p = htons 4 ++ htons k)

/-- The client; the number of blocks the server has sent, and whether the last of them was
    acknowledged since; the highest block that has arrived. -/
structure Transfer where
  client : Client
  sent : Nat
  acked : Bool
  got : Nat

inductive Event where
  /-- The server sends the next block. -/
  | serve
  /-- A block arrives, in a buffer with other bytes behind it. -/
  | deliver (k : Nat) (behind : List UInt8)
  /-- The client waited too long. -/
  | timeout

/-- The client after a call, with what it sent. -/
def Transfer.called (t : Transfer) (r : Client × List (List UInt8)) : Transfer :=
  { t with client := r.1, acked := t.acked || acks t.sent r.2 }

def Transfer.step (file : List UInt8) (b : Nat) (t : Transfer) : Event → Option Transfer
  | .serve => some { t with sent := t.sent + 1, acked := false }
  | .deliver k behind =>
    (tftpHandler t.client (dataPacket file b k behind) t.client.tftpOurPort t.client.tftpRemotePort).map fun r =>
      { t.called r with got := max t.got k }
  | .timeout => some (t.called (tftpTimeout t.client))

/-- What the server and the network may do. -/
def Transfer.Allowed (file : List UInt8) (b : Nat) (t : Transfer) : Event → Prop
  | .serve => t.client.loop = .running ∧ t.acked = true ∧ t.sent < blocks file b
  | .deliver k _ => t.client.loop = .running ∧ 1 ≤ k ∧ k ≤ t.sent
  | .timeout => t.client.loop = .running

/-- A block that arrives has the number of the block before, or its place fits an `int` and it is
    new or one of the current wrap, but for the first. -/
def Transfer.Timely (b : Nat) (t : Transfer) : Event → Prop
  | .deliver k _ => k % 65536 = t.client.tftpLastBlock ∨
    (((k % 65536 : Nat) : Int) - 1) * b < 2 ^ 31 ∧ (t.got < k ∨ k / 65536 = t.got / 65536 ∧ k % 65536 ≠ 0)
  | _ => True

instance (file : List UInt8) (b : Nat) (t : Transfer) : ∀ e, Decidable (t.Allowed file b e)
  | .serve => inferInstanceAs (Decidable (_ ∧ _ ∧ _))
  | .deliver _ _ => inferInstanceAs (Decidable (_ ∧ _ ∧ _))
  | .timeout => inferInstanceAs (Decidable (_ = _))

instance (b : Nat) (t : Transfer) : ∀ e, Decidable (t.Timely b e)
  | .serve => .isTrue trivial
  | .deliver _ _ => inferInstanceAs (Decidable (_ ∨ _ ∧ _))
  | .timeout => .isTrue trivial

/-- The transfer as the OACK starts it. -/
def begin (r : Client × List UInt8) : Transfer := ⟨r.1, 0, acks 0 [r.2], 0⟩

/-! ## Packets -/

theorem be16_htons (n : Nat) (xs : List UInt8) : be16 (htons n ++ xs) 0 = n % 65536 := by
  simp only [be16, htons, List.cons_append, List.nil_append, List.getD_cons_zero, List.getD_cons_succ,
    UInt8.toNat_ofNat']
  omega

theorem be16_dataPacket (file : List UInt8) (b k : Nat) (behind : List UInt8) :
    be16 (dataPacket file b k behind).bytes 0 = 3 ∧ be16 (dataPacket file b k behind).bytes 2 = k % 65536 := by
  constructor
  · simp only [dataPacket, List.append_assoc, be16_htons]
  · exact be16_htons k (blockOf file b k)

theorem htons_inj (m n : Nat) : htons m = htons n ↔ m % 65536 = n % 65536 := by
  constructor
  · intro h
    rw [← be16_htons m [], ← be16_htons n [], h]
  intro h
  have hhigh : m / 256 % 256 = n / 256 % 256 := by omega
  have hlow : m % 256 = n % 256 := by omega
  unfold htons
  congr 1
  · exact UInt8.toNat_inj.mp (by simpa using hhigh)
  · congr 1
    exact UInt8.toNat_inj.mp (by simpa using hlow)

theorem acks_ack (k n : Nat) : acks k [htons 4 ++ htons n] = decide (n % 65536 = k % 65536) := by
  unfold acks
  rw [List.any_cons, List.any_nil, Bool.or_false]
  refine decide_eq_decide.mpr ?_
  rw [List.append_cancel_left_eq, htons_inj]

/-! ## The handler -/

variable {t t₀ : Transfer}

section Handler

variable {c c' : Client} {file data : List UInt8} {b k n : Nat} {behind : List UInt8}

/-- The client with the number of the block that arrived. -/
def numbered (c : Client) (n : Nat) : Client := updateBlockNumber { c with tftpBlock := n }

/-- Only the wraps and the timeout counter change. -/
theorem numbered_fields (c : Client) (n : Nat) :
    (numbered c n).tftpState = c.tftpState ∧ (numbered c n).tftpBlock = n ∧
    (numbered c n).tftpLastBlock = c.tftpLastBlock ∧ (numbered c n).netBootFileXferSize = c.netBootFileXferSize ∧
    (numbered c n).mem = c.mem := by
  unfold numbered updateBlockNumber
  split <;> exact ⟨rfl, rfl, rfl, rfl, rfl⟩

theorem numbered_offset (c : Client) (n : Nat) : (numbered c n).tftpBlockWrapOffset =
    if n = 0 ∧ c.tftpLastBlock ≠ 0 then (c.tftpBlockWrapOffset + c.tftpBlkSize * 65536) % 2 ^ 64
    else c.tftpBlockWrapOffset := by
  unfold numbered updateBlockNumber
  split <;> rfl

/-- A block that is stored. -/
def stored (c : Client) (n : Nat) (data : List UInt8) : Option (Client × List (List UInt8)) :=
  (storeBlock { c with tftpLastBlock := n, tftpTimeoutCountMax := timeoutCountDefault } (n - 1) data).map fun c =>
    (if data.length < c.tftpBlkSize then tftpComplete c else c, [htons 4 ++ htons c.tftpBlock])

theorem storeBlock_fields {block : Int} (h : storeBlock c block data = some c') :
    c'.tftpState = c.tftpState ∧ c'.tftpWriting = c.tftpWriting := by
  unfold storeBlock at h
  dsimp only at h
  split at h
  · cases h
  · cases h
    exact ⟨rfl, rfl⟩

theorem tftpSend_ack (hstate : c.tftpState = .data ∨ c.tftpState = .oack)
    (hw : c.tftpWriting = false) :
    tftpSend c = (c, htons 4 ++ htons c.tftpBlock) := by
  unfold tftpSend
  rcases hstate with h | h
  · simp [h, hw]
  · simp [h, hw]

/-- The packets of the server reach `handleData`. -/
theorem tftpHandler_dataPacket (c : Client) :
    tftpHandler c (dataPacket file b k behind) c.tftpOurPort c.tftpRemotePort
      = handleData c c.tftpRemotePort (dataPacket file b k behind) := by
  have hlen : ¬ (dataPacket file b k behind).bytes.length < 2 := by
    simp [dataPacket, htons]
  unfold tftpHandler
  rw [if_neg (not_not.mpr rfl), if_neg (fun h => h.2.1 rfl), if_neg hlen,
    (be16_dataPacket file b k behind).1]
  rfl

/-- The rest of `handleData`, for a client that reads. -/
theorem handleData_eq (file : List UInt8) (b : Nat) (behind : List UInt8) {src : Nat} {c₁ : Client}
    (hfirst : firstBlock (numbered c (k % 65536)) src = some c₁)
    (hstate : c₁.tftpState = .data) (hw : c₁.tftpWriting = false) :
    handleData c src (dataPacket file b k behind) =
      if k % 65536 = c₁.tftpLastBlock then some (c₁, []) else stored c₁ (k % 65536) (blockOf file b k) := by
  have hlen : ¬ (dataPacket file b k behind).bytes.length < 4 := by
    simp [dataPacket, htons]
  have hdrop : (dataPacket file b k behind).bytes.drop 4 = blockOf file b k := rfl
  unfold handleData
  rw [if_neg hlen]
  rw [numbered] at hfirst
  simp only [(be16_dataPacket file b k behind).2, hdrop, hfirst]
  split
  · rfl
  unfold stored
  cases hstore : storeBlock { c₁ with tftpLastBlock := k % 65536, tftpTimeoutCountMax := timeoutCountDefault }
      ((k % 65536 : Nat) - 1) (blockOf file b k) with
  | none => rfl
  | some c₂ =>
    obtain ⟨hs, hwr⟩ := storeBlock_fields hstore
    simp only [tftpSend_ack (.inl (hs.trans hstate)) (hwr.trans hw), Option.map_some]

theorem firstBlock_data (src n : Nat) (hstate : c.tftpState = .data) :
    firstBlock (numbered c n) src = some (numbered c n) := by
  rw [firstBlock, if_neg]
  rw [(numbered_fields c n).1, hstate]
  decide

/-- The client when block 1 arrives. -/
def begun (c : Client) : Client := newTransfer { c with tftpBlock := 1, tftpState := .data }

theorem firstBlock_oack (hstate : c.tftpState = .oack) :
    firstBlock (numbered c 1) c.tftpRemotePort = some (begun c) := by
  have hnumbered : numbered c 1 = { c with tftpBlock := 1 } := by
    rfl
  rw [hnumbered, firstBlock, if_pos (.inr (.inl hstate))]
  exact if_neg (not_not.mpr rfl)

/-- After a timeout the last number is acknowledged again. -/
theorem tftpTimeout_cases (hstate : c.tftpState = .data ∨ c.tftpState = .oack)
    (hw : c.tftpWriting = false) :
    tftpTimeout c = ({ c with tftpTimeoutCount := c.tftpTimeoutCount + 1, loop := .startAgain }, []) ∨
    tftpTimeout c = ({ c with tftpTimeoutCount := c.tftpTimeoutCount + 1 }, [htons 4 ++ htons c.tftpBlock]) := by
  have hsend := tftpSend_ack (c := { c with tftpTimeoutCount := c.tftpTimeoutCount + 1 }) hstate hw
  unfold tftpTimeout
  dsimp only at hsend ⊢
  split
  · exact .inl rfl
  right
  rw [if_neg, hsend]
  rcases hstate with h | h
  · rw [h]
    decide
  · rw [h]
    decide

/-- A block arrives at a client that has got one. -/
theorem step_deliver (hstate : t.client.tftpState = .data)
    (hw : t.client.tftpWriting = false) :
    t.step file b (.deliver k behind) = Option.map (fun r => { t.called r with got := max t.got k })
      (if k % 65536 = t.client.tftpLastBlock then some (numbered t.client (k % 65536), [])
        else stored (numbered t.client (k % 65536)) (k % 65536) (blockOf file b k)) := by
  obtain ⟨hs, -, hl, -, -⟩ := numbered_fields t.client (k % 65536)
  have hwriting : (numbered t.client (k % 65536)).tftpWriting = false := by
    unfold numbered updateBlockNumber
    split <;> exact hw
  unfold Transfer.step
  dsimp only
  rw [tftpHandler_dataPacket, handleData_eq _ _ _ (firstBlock_data _ _ hstate)
    (hs.trans hstate) hwriting, hl]

/-- The offset of a block, with the wraps counted right. -/
theorem offset_eq {q w : Nat} (hk : 1 ≤ k) (hq : k = q * 65536 + n)
    (hwrap : w = q * 65536 * b % 2 ^ 64)
    (hfit : (k - 1) * b < 2 ^ 64) : ((((n : Int) - 1) * b + w) % 2 ^ 64).toNat = (k - 1) * b := by
  have hsum : ((n : Int) - 1) * b + ((q * 65536 * b : Nat) : Int) = (((k - 1) * b : Nat) : Int) := by
    push_cast [Nat.cast_sub hk]
    rw [hq]
    push_cast
    ring
  rw [hwrap]
  generalize ((n : Int) - 1) * b = p at *
  generalize q * 65536 * b = w at *
  generalize (k - 1) * b = r at *
  omega

/-- Block `k`, in its place. -/
def filled (c : Client) (k : Nat) (data : List UInt8) : Client := { c with
  tftpLastBlock := k % 65536
  tftpTimeoutCountMax := timeoutCountDefault
  mem := c.mem.copy ((c.loadAddr + (k - 1) * c.tftpBlkSize) % 2 ^ 64) (Mem.ofList data) 0 data.length
  netBootFileXferSize := max c.netBootFileXferSize ((k - 1) * c.tftpBlkSize + data.length) }

theorem filled_fields (c : Client) (k : Nat) (data : List UInt8) :
    (filled c k data).tftpState = c.tftpState ∧ (filled c k data).tftpLastBlock = k % 65536 ∧
    (filled c k data).tftpBlockWrapOffset = c.tftpBlockWrapOffset ∧
    (k - 1) * c.tftpBlkSize + data.length ≤ (filled c k data).netBootFileXferSize :=
  ⟨rfl, rfl, rfl, le_max_right _ _⟩

/-- With the wraps counted right, a block is stored in its place. -/
theorem stored_eq (c : Client) (data : List UInt8)
    (hprod : (((k % 65536 : Nat) : Int) - 1) * c.tftpBlkSize < 2 ^ 31)
    (hb : c.tftpBlkSize < 65536) (hk : 1 ≤ k)
    (hwrap : c.tftpBlockWrapOffset = k / 65536 * 65536 * c.tftpBlkSize % 2 ^ 64)
    (hfit : (k - 1) * c.tftpBlkSize + data.length < 2 ^ 64) :
    stored c (k % 65536) data =
      some (if data.length < c.tftpBlkSize then tftpComplete (filled c k data) else filled c k data,
        [htons 4 ++ htons c.tftpBlock]) := by
  have hlow : -65536 < (((k % 65536 : Nat) : Int) - 1) * c.tftpBlkSize := by
    rcases Nat.eq_zero_or_pos (k % 65536) with hzero | hpos
    · rw [hzero]
      omega
    · have : 0 ≤ (((k % 65536 : Nat) : Int) - 1) * c.tftpBlkSize := mul_nonneg (by omega) (by omega)
      omega
  have hoff := offset_eq hk (n := k % 65536) (q := k / 65536) (by omega) hwrap (by omega)
  have hmax : (if c.netBootFileXferSize < (k - 1) * c.tftpBlkSize + data.length
      then (k - 1) * c.tftpBlkSize + data.length else c.netBootFileXferSize)
        = max c.netBootFileXferSize ((k - 1) * c.tftpBlkSize + data.length) := by
    split <;> omega
  unfold stored storeBlock
  dsimp only
  rw [if_neg (by omega), hoff, Nat.mod_eq_of_lt hfit, hmax]
  rfl

end Handler

/-! ## The file so far -/

variable {a b n : Nat}

section Download

variable {file : List UInt8} {b k a : Nat}

theorem length_blockOf (file : List UInt8) (b k : Nat) :
    (blockOf file b k).length = min b (file.length - (k - 1) * b) := by
  rw [blockOf, List.length_take, List.length_drop]

theorem blockOf_getD {i : Nat} (hi : i < (blockOf file b k).length) :
    (blockOf file b k).getD i 0 = file.getD ((k - 1) * b + i) 0 := by
  rw [length_blockOf] at hi
  rw [blockOf, List.getD_eq_getElem?_getD, List.getD_eq_getElem?_getD,
    List.getElem?_take_of_lt (by omega),
    List.getElem?_drop]

/-- Whole blocks are in the file. -/
theorem mul_le_of_lt_blocks (hk : k < blocks file b) : k * b ≤ file.length := by
  have hle : k ≤ file.length / b := by
    unfold blocks at hk
    omega
  exact (Nat.mul_le_mul_right b hle).trans (Nat.div_mul_le_self _ _)

/-- The last block is not full. -/
theorem length_lt_of_blocks (hb : 0 < b) (hk : k = blocks file b) : file.length < (k - 1) * b + b := by
  unfold blocks at hk
  have := Nat.lt_div_mul_add hb (a := file.length)
  rw [hk, Nat.add_sub_cancel]
  exact this

/-- The first `n` bytes of the file are at `a`. -/
def Loaded (file : List UInt8) (a n : Nat) (m : Mem) : Prop := ∀ x < n, m (a + x) = file.getD x 0

/-- The file is loaded block by block. -/
theorem Loaded.copy_block {n' : Nat} {m : Mem} (h : Loaded file a n m)
    (hfit : a + file.length ≤ 2 ^ 64)
    (hk : (k - 1) * b ≤ n) (hn' : n' = max n ((k - 1) * b + (blockOf file b k).length))
    (hle : n ≤ file.length) :
    Loaded file a n' (m.copy ((a + (k - 1) * b) % 2 ^ 64) (Mem.ofList (blockOf file b k)) 0
      (blockOf file b k).length) := by
  intro x hx
  have hlen := length_blockOf file b k
  rcases Nat.eq_zero_or_pos (blockOf file b k).length with hzero | hpos
  · rw [hzero, Mem.copy_apply_out (by omega)]
    exact h x (by omega)
  rw [Nat.mod_eq_of_lt (by omega)]
  by_cases hin : (k - 1) * b ≤ x ∧ x < (k - 1) * b + (blockOf file b k).length
  · rw [Mem.copy_apply_in (by omega) (by omega)]
    show (blockOf file b k).getD (0 + (a + x - (a + (k - 1) * b))) 0 = _
    rw [blockOf_getD (by omega)]
    congr 1
    omega
  · rw [Mem.copy_apply_out (by omega)]
    exact h x (by omega)

end Download

/-! ## Invariant -/

/-- A client that reads, with block size `b`, to address `a`. -/
structure Reading (b a : Nat) (c : Client) : Prop where
  writing : c.tftpWriting = false
  blkSize : c.tftpBlkSize = b
  loadAddr : c.loadAddr = a
  loop : c.loop = .running

variable {c : Client}

theorem Reading.numbered (h : Reading b a c) (n : Nat) :
    Reading b a (numbered c n) := by
  unfold Tftp.numbered updateBlockNumber
  split <;> exact { h with }

theorem Reading.filled (h : Reading b a c) (k : Nat) (data : List UInt8) :
    Reading b a (filled c k data) :=
  { h with }

/-- No block has arrived. -/
structure Waiting (b a : Nat) (t : Transfer) : Prop where
  reading : Reading b a t.client
  state : t.client.tftpState = .oack
  block : t.client.tftpBlock = 0
  size : t.client.netBootFileXferSize = 0
  got : t.got = 0
  sent_le : t.sent ≤ 1
  pending : t.sent = 1 → t.acked = false

/-- Block `l` is the one that was handled last. -/
structure Running (file : List UInt8) (b a l : Nat) (t : Transfer) : Prop where
  reading : Reading b a t.client
  state : t.client.tftpState = .data
  block : t.client.tftpBlock = l % 65536
  last : t.client.tftpLastBlock = l % 65536
  le : l ≤ t.got
  wrap : l / 65536 = t.got / 65536
  zero : l % 65536 ≠ 0 ∨ l = t.got
  offset : t.client.tftpBlockWrapOffset = t.got / 65536 * 65536 * b % 2 ^ 64
  got_lt : t.got < blocks file b
  le_sent : t.got ≤ t.sent
  sent_le : t.sent ≤ t.got + 1
  pending : t.sent = t.got + 1 → t.acked = false
  size : t.client.netBootFileXferSize = t.got * b
  loaded : Loaded file a (t.got * b) t.client.mem

/-- The loop was left, and if the transfer is complete, the file is there. -/
structure Stopped (file : List UInt8) (a : Nat) (t : Transfer) : Prop where
  loop : t.client.loop ≠ .running
  exact : t.client.loop = .success →
    t.client.netBootFileXferSize = file.length ∧ Loaded file a file.length t.client.mem

def Inv (file : List UInt8) (b a : Nat) (t : Transfer) : Prop :=
  Waiting b a t ∨ (∃ l, Running file b a l t) ∨ Stopped file a t

section Steps

variable {file : List UInt8} {b a k l : Nat} {t : Transfer} {c : Client}
variable (hpos : 0 < b) (hb : b < 65536) (hlen : file.length < 2 ^ 64)
    (hfit : a + file.length ≤ 2 ^ 64)

include hpos hb hlen hfit

/-- A block that is stored in its place: the next one, or one that was stored there before. -/
theorem stored_keeps (hr : Reading b a c) (hstate : c.tftpState = .data)
    (hblock : c.tftpBlock = k % 65536)
    (hsize : c.netBootFileXferSize = t.got * b) (hload : Loaded file a (t.got * b) c.mem)
    (hwrap : c.tftpBlockWrapOffset = k / 65536 * 65536 * b % 2 ^ 64)
    (hprod : (((k % 65536 : Nat) : Int) - 1) * b < 2 ^ 31) (hgot : t.got < blocks file b) (hk : 1 ≤ k)
    (hsent : k ≤ t.sent) (hle : t.got ≤ t.sent) (hge : t.sent ≤ t.got + 1)
    (hpend : t.sent = t.got + 1 → t.acked = false)
    (hdup : k ≤ t.got → k / 65536 = t.got / 65536 ∧ k % 65536 ≠ 0) :
    ∃ r, stored c (k % 65536) (blockOf file b k) = some r ∧ (k = t.sent → acks t.sent r.2 = true) ∧
      (k < blocks file b → Running file b a k { t.called r with got := max t.got k }) ∧
      (k = blocks file b → Stopped file a { t.called r with got := max t.got k }) := by
  have hwhole := mul_le_of_lt_blocks hgot
  have hbefore : (k - 1) * b ≤ t.got * b := Nat.mul_le_mul_right b (by omega)
  have hblockLen := length_blockOf file b k
  have hstored := stored_eq (k := k) c (blockOf file b k) (by rw [hr.blkSize]; exact hprod)
    (by rw [hr.blkSize]; exact hb) hk (by rw [hr.blkSize]; exact hwrap) (by rw [hr.blkSize]; omega)
  rw [hr.blkSize, hblock] at hstored
  have hcopy : ∀ n, n = max (t.got * b) ((k - 1) * b + (blockOf file b k).length) →
      Loaded file a n (filled c k (blockOf file b k)).mem := by
    intro n hn
    unfold filled
    rw [hr.loadAddr, hr.blkSize]
    exact hload.copy_block hfit hbefore hn hwhole
  refine ⟨_, hstored, fun heq => ?_, fun hlt => ?_, fun heq => ?_⟩
  · rw [acks_ack, heq, Nat.mod_mod]
    exact decide_eq_true rfl
  · -- a block that is not the last one is full
    have hfull := mul_le_of_lt_blocks hlt
    have hk' : k * b = (k - 1) * b + b := by
      rw [← Nat.succ_mul]
      congr 1
      omega
    have hmax : max t.got k * b = max (t.got * b) ((k - 1) * b + (blockOf file b k).length) := by
      rw [← Nat.mul_max_mul_right, hk']
      congr 1
      omega
    rw [if_neg (by omega)]
    refine ⟨{ hr with }, hstate, hblock, rfl, le_max_right _ _,
      ?_, ?_, ?_,
      max_lt hgot hlt, max_le hle hsent, ?_, fun hnext => ?_, ?_, ?_⟩
    · show k / 65536 = max t.got k / 65536
      omega
    · show k % 65536 ≠ 0 ∨ k = max t.got k
      omega
    · show c.tftpBlockWrapOffset = max t.got k / 65536 * 65536 * b % 2 ^ 64
      rw [hwrap, show max t.got k / 65536 = k / 65536 by omega]
    · show t.sent ≤ max t.got k + 1
      omega
    · -- the next block has another number than one of the same wrap
      replace hnext : t.sent = max t.got k + 1 := hnext
      show (t.acked || acks t.sent [htons 4 ++ htons (k % 65536)]) = false
      rw [hpend (by omega), acks_ack, Bool.false_or]
      exact decide_eq_false (by omega)
    · show max c.netBootFileXferSize ((k - 1) * c.tftpBlkSize + (blockOf file b k).length) = max t.got k * b
      rw [hsize, hr.blkSize, hmax]
    · exact hcopy _ hmax
  · have hshort := length_lt_of_blocks hpos heq
    have hsum : max (t.got * b) ((k - 1) * b + (blockOf file b k).length) = file.length := by
      omega
    rw [if_pos (by omega)]
    refine ⟨show Loop.success ≠ Loop.running by decide, fun _ => ⟨?_, ?_⟩⟩
    · show max c.netBootFileXferSize ((k - 1) * c.tftpBlkSize + (blockOf file b k).length) = file.length
      rw [hsize, hr.blkSize, hsum]
    · exact hcopy _ hsum.symm

/-- A block arrives. -/
theorem Running.deliver (h : Running file b a l t) (behind : List UInt8) (hk : 1 ≤ k)
    (hsent : k ≤ t.sent)
    (htimely : t.Timely b (.deliver k behind)) :
    ∃ t', t.step file b (.deliver k behind) = some t' ∧ Inv file b a t' ∧
      (t.got < k → k < blocks file b → Running file b a k t' ∧ t'.acked = true ∧ t'.got = k) := by
  have hle := h.le
  have hwrap := h.wrap
  have hge := h.sent_le
  have hzero := h.zero
  obtain ⟨hstate, hblock, hlast, hsize, hmem⟩ := numbered_fields t.client (k % 65536)
  have hoffset := numbered_offset t.client (k % 65536)
  have hreading := h.reading.numbered (k % 65536)
  rw [step_deliver h.state h.reading.writing, h.last]
  rw [h.state] at hstate
  rw [h.last] at hlast hoffset
  rw [h.reading.blkSize, h.offset] at hoffset
  generalize numbered t.client (k % 65536) = c at *
  by_cases hsame : k % 65536 = l % 65536
  · rw [if_pos hsame]
    have hold : k ≤ t.got := by omega
    rw [if_neg (by omega)] at hoffset
    refine ⟨_, rfl, .inr (.inl ⟨l, ?_⟩), fun hlt => absurd hlt (by omega)⟩
    rw [max_eq_left hold]
    refine ⟨hreading, hstate, hblock.trans hsame, hlast, hle, hwrap, hzero, hoffset, h.got_lt,
      h.le_sent, hge,
      fun hnext => ?_, hsize.trans h.size, hmem ▸ h.loaded⟩
    show (t.acked || acks t.sent []) = false
    rw [h.pending hnext]
    rfl
  · rw [if_neg hsame]
    obtain ⟨hprod, hnew⟩ : _ ∧ _ := htimely.resolve_left (by rw [h.last]; exact hsame)
    have hgot := h.got_lt
    have hplace : c.tftpBlockWrapOffset = k / 65536 * 65536 * b % 2 ^ 64 := by
      rw [hoffset]
      split
      · rw [Nat.mod_add_mod, show k / 65536 = t.got / 65536 + 1 by omega]
        congr 1
        ring
      · rw [show k / 65536 = t.got / 65536 by omega]
    obtain ⟨r, hr, hacks, hrunning, hstopped⟩ := stored_keeps hpos hb hlen hfit hreading hstate hblock
      (hsize.trans h.size) (hmem ▸ h.loaded) hplace hprod hgot hk hsent h.le_sent hge h.pending
      (fun hold => hnew.resolve_left (by omega))
    rw [hr]
    refine ⟨_, rfl, ?_, fun hlt hmore => ⟨hrunning hmore, ?_, max_eq_right (by omega)⟩⟩
    · rcases Nat.lt_or_ge k (blocks file b) with hlt | hgeq
      · exact .inr (.inl ⟨k, hrunning hlt⟩)
      · exact .inr (.inr (hstopped (by omega)))
    · show (t.acked || acks t.sent r.2) = true
      rw [hacks (by omega), Bool.or_true]

/-- The first block arrives. -/
theorem Waiting.deliver (h : Waiting b a t) (behind : List UInt8) (hk : 1 ≤ k) (hsent : k ≤ t.sent) :
    ∃ t', t.step file b (.deliver k behind) = some t' ∧ Inv file b a t' ∧
      (k < blocks file b → Running file b a k t' ∧ t'.acked = true ∧ t'.got = k) := by
  have hge := h.sent_le
  have hgot := h.got
  obtain rfl : k = 1 := by omega
  have hr := h.reading
  have hbegun : Reading b a (begun t.client) := { hr with }
  have hload : Loaded file a (t.got * b) (begun t.client).mem := fun x hx => absurd hx (by rw [hgot]; omega)
  have hrun := handleData_eq (k := 1) file b behind (firstBlock_oack h.state) rfl hbegun.writing
  rw [← tftpHandler_dataPacket,
    if_neg (show ¬ 1 % 65536 = (begun t.client).tftpLastBlock from Nat.one_ne_zero)] at hrun
  unfold Transfer.step
  dsimp only
  rw [hrun]
  obtain ⟨r, hr, hacks, hrunning, hstopped⟩ := stored_keeps (k := 1) hpos hb hlen hfit hbegun rfl rfl
    (by rw [hgot, Nat.zero_mul]; exact h.size) hload (by rw [Nat.zero_mul]; rfl) (by simp)
    (by rw [hgot]; exact Nat.succ_pos _) hk hsent (by omega) (by omega)
    (by rw [hgot]; exact h.pending) (by omega)
  rw [hr]
  refine ⟨_, rfl, ?_, fun hmore => ⟨hrunning hmore, ?_, max_eq_right (by omega)⟩⟩
  · rcases Nat.lt_or_ge 1 (blocks file b) with hlt | hgeq
    · exact .inr (.inl ⟨1, hrunning hlt⟩)
    · exact .inr (.inr (hstopped (le_antisymm (Nat.succ_pos _) hgeq)))
  · show (t.acked || acks t.sent r.2) = true
    rw [hacks (by omega), Bool.or_true]

omit hpos hb hlen hfit in
/-- The number of the block that was handled last is not that of the next one. -/
theorem Running.not_next (h : Running file b a l t) (hnext : t.sent = t.got + 1) :
    ¬ l % 65536 = t.sent % 65536 := by
  have := h.le
  have := h.wrap
  have := h.zero
  omega

omit hpos hb hlen hfit in
theorem Inv.timeout (h : Inv file b a t) (hloop : t.client.loop = .running) :
    Inv file b a (t.called (tftpTimeout t.client)) := by
  have hagain : ∀ c : Client, c.loop = .startAgain → Stopped file a (t.called (c, [])) := fun c hc =>
    ⟨by rw [show (t.called (c, [])).client = c from rfl, hc]; decide,
      fun hsuccess => nomatch (hc.symm.trans hsuccess)⟩
  rcases h with h | ⟨l, h⟩ | h
  · have hr := h.reading
    rcases tftpTimeout_cases (.inr h.state) hr.writing with heq | heq
    · rw [heq]
      exact .inr (.inr (hagain _ rfl))
    rw [heq]
    refine .inl { h with reading := { hr with }, pending := fun hone => ?_ }
    replace hone : t.sent = 1 := hone
    show (t.acked || acks t.sent [htons 4 ++ htons t.client.tftpBlock]) = false
    rw [h.pending hone, h.block, acks_ack, Bool.false_or, hone]
    rfl
  · have hr := h.reading
    rcases tftpTimeout_cases (.inl h.state) hr.writing with heq | heq
    · rw [heq]
      exact .inr (.inr (hagain _ rfl))
    rw [heq]
    refine .inr (.inl ⟨l, { h with reading := { hr with }, pending := fun hnext => ?_ }⟩)
    show (t.acked || acks t.sent [htons 4 ++ htons t.client.tftpBlock]) = false
    rw [h.pending hnext, h.block, acks_ack, Bool.false_or, Nat.mod_mod]
    exact decide_eq_false (h.not_next hnext)
  · exact absurd hloop h.loop

omit hpos hb hlen hfit in
theorem Running.sent_eq (h : Running file b a l t) (hacked : t.acked = true) : t.sent = t.got := by
  have hne : t.sent ≠ t.got + 1 := fun hnext => by
    rw [h.pending hnext] at hacked
    cases hacked
  have := h.le_sent
  have := h.sent_le
  omega

omit hpos hb hlen hfit in
theorem Running.serve (h : Running file b a l t) (hacked : t.acked = true) :
    Running file b a l { t with sent := t.sent + 1, acked := false } := by
  have hsent := h.sent_eq hacked
  exact { h with
    le_sent := h.le_sent.trans (Nat.le_succ _)
    sent_le := by show t.sent + 1 ≤ t.got + 1; omega
    pending := fun _ => rfl }

omit hpos hb hlen hfit in
theorem Waiting.serve (h : Waiting b a t) (hacked : t.acked = true) :
    Waiting b a { t with sent := t.sent + 1, acked := false } := by
  have hsent : t.sent = 0 := by
    have hne : t.sent ≠ 1 := fun hone => by
      rw [h.pending hone] at hacked
      cases hacked
    have := h.sent_le
    omega
  exact { h with sent_le := by show t.sent + 1 ≤ 1; omega, pending := fun _ => rfl }

/-- **One event.** -/
theorem Inv.step {e : Event} (h : Inv file b a t) (hallowed : t.Allowed file b e)
    (htimely : t.Timely b e) :
    ∃ t', t.step file b e = some t' ∧ Inv file b a t' := by
  cases e with
  | serve =>
    obtain ⟨hloop, hacked, -⟩ := hallowed
    refine ⟨_, rfl, ?_⟩
    rcases h with h | ⟨l, h⟩ | h
    · exact .inl (h.serve hacked)
    · exact .inr (.inl ⟨l, h.serve hacked⟩)
    · exact absurd hloop h.loop
  | timeout => exact ⟨_, rfl, h.timeout hallowed⟩
  | deliver k behind =>
    obtain ⟨hloop, hk, hsent⟩ := hallowed
    rcases h with h | ⟨l, h⟩ | h
    · obtain ⟨t', hstep, hinv, -⟩ := h.deliver hpos hb hlen hfit behind hk hsent
      exact ⟨t', hstep, hinv⟩
    · obtain ⟨t', hstep, hinv, -⟩ := h.deliver hpos hb hlen hfit behind hk hsent htimely
      exact ⟨t', hstep, hinv⟩
    · exact absurd hloop h.loop

end Steps

/-! ## Whole transfers -/

theorem blkSizeOption_lt (options : List UInt8) (len : Nat) {blkSize : Nat} (h : blkSize < 65536) :
    blkSizeOption options len blkSize < 65536 := by
  unfold blkSizeOption
  induction List.range (len - 8) generalizing blkSize with
  | nil => exact h
  | cons i is ih =>
    rw [List.foldl_cons]
    refine ih ?_
    split
    · omega
    · exact h

/-- The client that reads a file, after the OACK. -/
def getClient (c : Client) (ourPort retries src : Nat) (oack : Received) : Client × List UInt8 :=
  handleOack (tftpStart c false ourPort retries).1 src oack

theorem waiting_begin (c : Client) (ourPort retries src : Nat) (oack : Received) :
    Waiting (getClient c ourPort retries src oack).1.tftpBlkSize c.loadAddr
      (begin (getClient c ourPort retries src oack)) :=
  ⟨⟨rfl, rfl, rfl, rfl⟩, rfl, rfl, rfl, rfl, Nat.zero_le _, fun hone => absurd hone Nat.zero_ne_one⟩

theorem getClient_blkSize (c : Client) (ourPort retries src : Nat) (oack : Received) :
    (getClient c ourPort retries src oack).1.tftpBlkSize < 65536 :=
  blkSizeOption_lt _ _ (show (512 : Nat) < 65536 by decide)

/-- **The file is loaded**, in every run in which the blocks that arrive again are those of the
    current wrap. -/
theorem tftpGet_exact (c : Client) (ourPort retries src b : Nat) (oack : Received) (file : List UInt8)
    (events : List Event) (hb : (getClient c ourPort retries src oack).1.tftpBlkSize = b)
    (hmin : 8 ≤ b)
    (hlen : file.length < 2 ^ 64) (hfit : c.loadAddr + file.length ≤ 2 ^ 64)
    (hrun : Run.AlongExec (Transfer.step file b) (fun t e => t.Allowed file b e ∧ t.Timely b e)
      (begin (getClient c ourPort retries src oack)) events) :
    ∃ t, Run.exec (Transfer.step file b) (begin (getClient c ourPort retries src oack)) events = some t ∧
      (t.client.loop = .success → t.client.mem.bytes c.loadAddr file.length = file ∧
        t.client.netBootFileXferSize = file.length) := by
  have hstart : Inv file b c.loadAddr (begin (getClient c ourPort retries src oack)) :=
    .inl (hb ▸ waiting_begin c ourPort retries src oack)
  have hb' : b < 65536 := hb ▸ getClient_blkSize c ourPort retries src oack
  obtain ⟨t, ht, hinv⟩ := Run.exec_invariant
    (fun t e hinv hC => Inv.step (by omega) hb' hlen hfit hinv hC.1 hC.2) events _ hstart hrun
  refine ⟨t, ht, fun hsuccess => ?_⟩
  rcases hinv with h | ⟨l, h⟩ | h
  · cases h.reading.loop.symm.trans hsuccess
  · cases h.reading.loop.symm.trans hsuccess
  obtain ⟨hsize, hloaded⟩ := h.exact hsuccess
  refine ⟨List.ext_getElem (by simp [Mem.bytes]) fun x hx hx' => ?_, hsize⟩
  have hbyte := hloaded x hx'
  rw [List.getD_eq_getElem _ _ hx'] at hbyte
  rw [← hbyte]
  simp [Mem.bytes]

/-- The variables before a transfer. -/
def idle : Client where
  tftpState := .sendRrq
  tftpBlock := 0
  tftpLastBlock := 0
  tftpBlockWrap := 0
  tftpBlockWrapOffset := 0
  tftpBlkSize := 512
  tftpBlkSizeOption := 1468
  tftpTimeoutMSecs := 5000
  tftpTimeoutCount := 0
  tftpTimeoutCountMax := 10
  tftpRemotePort := 69
  tftpOurPort := 1024
  tftpWriting := false
  tftpFinalBlock := false
  tftpFilename := []
  netBootFileXferSize := 0
  loadAddr := 4096
  saveAddr := 4096
  saveSize := 0
  mem := Mem.zero
  loop := .running

/-- An OACK for blocks of 8 bytes. -/
def oackEight : Received := ⟨htons 6 ++ cstring (Fastboot.ascii "blksize") ++ cstring (Fastboot.ascii "8"), []⟩

/-- Block 1 comes again after a time-out, and the transfer ends all the same. -/
theorem tftpGet_exact_repeated :
    ∃ t, Run.exec (Transfer.step [1, 2, 3, 4, 5, 6, 7, 8, 9] 8)
        (begin (getClient idle 1024 10 2000 oackEight))
        [.serve, .deliver 1 [], .timeout, .serve, .deliver 1 [], .deliver 2 []] = some t ∧
      t.client.loop = .success ∧
      t.client.mem.bytes idle.loadAddr 9 = [1, 2, 3, 4, 5, 6, 7, 8, 9] ∧
      t.client.netBootFileXferSize = 9 := by
  obtain ⟨t, ht, hexact⟩ := tftpGet_exact idle 1024 10 2000 8 oackEight [1, 2, 3, 4, 5, 6, 7, 8, 9]
    [.serve, .deliver 1 [], .timeout, .serve, .deliver 1 [], .deliver 2 []] (by decide +kernel)
    (by decide) (by decide) (by decide) (by decide +kernel)
  have hloop := congrArg (Option.map (·.client.loop)) ht
  have hsuccess : t.client.loop = .success := Option.some.inj (hloop.symm.trans (by decide +kernel))
  exact ⟨t, ht, hsuccess, hexact hsuccess⟩

section Repeated

variable {file : List UInt8} {b a : Nat}

/-- All blocks up to `n` can arrive in their order. -/
theorem reaches_inOrder (file : List UInt8) (hstart : Waiting b a t₀)
    (hsent : t₀.sent = 0) (hacked : t₀.acked = true)
    (hpos : 0 < b) (hb : b ≤ 32768) (hlen : file.length < 2 ^ 64) (hfit : a + file.length ≤ 2 ^ 64)
    (hn : n + 1 < blocks file b) : ∃ t, Run.Reaches (Transfer.step file b) (Transfer.Allowed file b) t₀ t ∧
      Running file b a (n + 1) t ∧ t.acked = true ∧ t.got = n + 1 := by
  induction n with
  | zero =>
    have hserve := hstart.serve hacked
    have hone : 1 ≤ t₀.sent + 1 := by omega
    have hrefl : Run.Reaches (Transfer.step file b) (Transfer.Allowed file b) t₀ t₀ := Run.Reaches.refl t₀
    have hallowed : t₀.Allowed file b .serve := ⟨hstart.reading.loop, hacked, by omega⟩
    have hreach := hrefl.tail hallowed rfl
    obtain ⟨t, hstep, -, hrun⟩ := hserve.deliver hpos (by omega) hlen hfit [] le_rfl hone
    exact ⟨t, hreach.tail (show Transfer.Allowed _ _ _ (.deliver 1 []) from ⟨hserve.reading.loop, le_refl 1, hone⟩)
      hstep, hrun hn⟩
  | succ n ih =>
    obtain ⟨t, hreach, hrunning, hacked', hgot⟩ := ih (by omega)
    have hserve := hrunning.serve hacked'
    have hsent' : n + 2 ≤ t.sent + 1 := by
      have := hrunning.le_sent
      omega
    have hallowed : t.Allowed file b .serve := by
      have := hserve.sent_le
      dsimp only at this
      exact ⟨hrunning.reading.loop, hacked', by omega⟩
    have hreach' := hreach.tail hallowed rfl
    have hprod : (((n + 2) % 65536 : Nat) - 1 : Int) * b < 2 ^ 31 := by
      have : (((n + 2) % 65536 : Nat) - 1 : Int) * b ≤ 65534 * 32768 :=
        Int.mul_le_mul (by omega) (by omega) (by omega) (by omega)
      omega
    obtain ⟨t', hstep, -, hrun⟩ := hserve.deliver hpos (by omega) hlen hfit [] (k := n + 2) (by omega) hsent'
      (.inr ⟨hprod, .inl (by dsimp only; omega)⟩)
    exact ⟨t', hreach'.tail
      (show Transfer.Allowed _ _ _ (.deliver (n + 2) []) from ⟨hserve.reading.loop, by omega, hsent'⟩) hstep,
      hrun (by dsimp only; omega) hn⟩

/-- A block is stored where the wraps that were counted put it: in the place of block `j`. -/
theorem step_stored (file : List UInt8) (hstate : t.client.tftpState = .data)
    (hr : Reading b a t.client) (hb : b < 65536)
    (behind : List UInt8) {k j : Nat} (hne : ¬ k % 65536 = t.client.tftpLastBlock)
    (hj : j % 65536 = k % 65536)
    (hpos : 1 ≤ j)
    (hoffset : (numbered t.client (k % 65536)).tftpBlockWrapOffset = j / 65536 * 65536 * b % 2 ^ 64)
    (hprod : (((j % 65536 : Nat) : Int) - 1) * b < 2 ^ 31)
    (hfit : (j - 1) * b + (blockOf file b k).length < 2 ^ 64) :
    t.step file b (.deliver k behind) = some { t.called
      (if (blockOf file b k).length < b
        then tftpComplete (filled (numbered t.client (k % 65536)) j (blockOf file b k))
        else filled (numbered t.client (k % 65536)) j (blockOf file b k), [htons 4 ++ htons (k % 65536)]) with
      got := max t.got k } := by
  have hstored := stored_eq (k := j) (numbered t.client (k % 65536)) (blockOf file b k)
  rw [(hr.numbered _).blkSize, (numbered_fields _ _).2.1, hj] at hstored
  rw [step_deliver hstate hr.writing, if_neg hne, hstored (hj ▸ hprod) hb hpos hoffset hfit]
  rfl

/-- With two wraps counted, the last of 65538 blocks is stored behind the end of the file. -/
theorem reaches_storedBehind (hfile : file.length = 524297)
    (hreach : Run.Reaches (Transfer.step file 8) (Transfer.Allowed file 8) t₀ t)
    (hr : Reading 8 a t.client)
    (hstate : t.client.tftpState = .data) (hlast : t.client.tftpLastBlock = 0)
    (hoffset : t.client.tftpBlockWrapOffset = 1048576) (hacked : t.acked = true)
    (hsent : t.sent = 65537) :
    ∃ t', Run.Reaches (Transfer.step file 8) (Transfer.Allowed file 8) t₀ t' ∧ t'.client.loop = .success ∧
      t'.client.netBootFileXferSize ≠ file.length := by
  have hblocks : blocks file 8 = 65538 := by
    rw [blocks, hfile]
  have hserve : t.Allowed file 8 .serve := ⟨hr.loop, hacked, by omega⟩
  have hreach' := hreach.tail hserve rfl
  have hlen : (blockOf file 8 65538).length = 1 := by
    rw [length_blockOf, hfile]
    decide
  have hstep := step_stored file (t := { t with sent := t.sent + 1, acked := false }) hstate hr (by decide) []
    (k := 65538) (j := 131074) (by rw [hlast]; decide) rfl (by decide)
    (by rw [numbered_offset, hlast, hoffset, if_neg (by decide)]; decide) (by decide) (by rw [hlen]; decide)
  rw [if_pos (by rw [hlen]; decide)] at hstep
  have hallowed : Transfer.Allowed file 8 { t with sent := t.sent + 1, acked := false } (.deliver 65538 []) :=
    ⟨hr.loop, by decide, by show 65538 ≤ t.sent + 1; omega⟩
  refine ⟨_, hreach'.tail hallowed hstep, rfl, ?_⟩
  have hsize := (filled_fields (numbered t.client (65538 % 65536)) 131074 (blockOf file 8 65538)).2.2.2
  rw [(hr.numbered _).blkSize, hlen] at hsize
  show (filled (numbered t.client (65538 % 65536)) 131074 (blockOf file 8 65538)).netBootFileXferSize ≠ file.length
  omega

/-- In a file of 65538 blocks, block 65536 arrives twice, the second time after block 65537: its
    number is 0, so that one more wrap is counted, and the last block is stored behind the end of
    the file. -/
theorem reaches_wrapTwice (hfile : file.length = 524297) : ∃ t,
    Run.Reaches (Transfer.step file 8) (Transfer.Allowed file 8) (begin (getClient idle 1024 10 2000 oackEight)) t ∧
    t.client.loop = .success ∧ t.client.netBootFileXferSize ≠ file.length := by
  have hblocks : blocks file 8 = 65538 := by
    rw [blocks, hfile]
  have hsize : (getClient idle 1024 10 2000 oackEight).1.tftpBlkSize = 8 := by decide +kernel
  have hwaiting := waiting_begin idle 1024 10 2000 oackEight
  rw [hsize] at hwaiting
  obtain ⟨t, hreach, h, hacked, hgot⟩ := reaches_inOrder file (n := 65536) hwaiting rfl (by decide +kernel)
    (by decide) (by decide) (by rw [hfile]; decide) (by rw [hfile]; decide) (by rw [hblocks]; decide)
  -- block 65536 again
  have hlast : t.client.tftpLastBlock = 1 := h.last
  have hoffset := h.offset
  rw [hgot] at hoffset
  have hsent : 65537 ≤ t.sent := by
    have := h.le_sent
    omega
  have hlen₁ : (blockOf file 8 65536).length = 8 := by
    rw [length_blockOf, hfile]
    decide
  have hstep₁ := step_stored file h.state h.reading (by decide) [] (k := 65536) (j := 131072)
    (by rw [hlast]; decide) rfl (by decide)
    (by rw [numbered_offset, hlast, hoffset, h.reading.blkSize]; decide) (by decide) (by rw [hlen₁]; decide)
  rw [if_neg (by rw [hlen₁]; decide)] at hstep₁
  have hreach₁ := hreach.tail
    (show t.Allowed file 8 (.deliver 65536 []) from ⟨h.reading.loop, by decide, by omega⟩) hstep₁
  have hr₁ := (h.reading.numbered (65536 % 65536)).filled 131072 (blockOf file 8 65536)
  obtain ⟨hstate₁, hlast₁, hoffset₁, -⟩ :=
    filled_fields (numbered t.client (65536 % 65536)) 131072 (blockOf file 8 65536)
  rw [(numbered_fields _ _).1, h.state] at hstate₁
  rw [numbered_offset, hlast, hoffset, h.reading.blkSize] at hoffset₁
  refine reaches_storedBehind hfile hreach₁ hr₁ hstate₁ hlast₁ (hoffset₁.trans (by decide)) ?_ ?_
  · show (t.acked || _) = true
    rw [hacked]
    rfl
  · exact (h.sent_eq hacked).trans hgot

end Repeated

theorem tftpGet_counts_wrap_twice : ∃ (file : List UInt8) (t : Transfer), file.length = 524297 ∧
    Run.Reaches (Transfer.step file 8) (Transfer.Allowed file 8) (begin (getClient idle 1024 10 2000 oackEight)) t ∧
    t.client.loop = .success ∧ t.client.netBootFileXferSize ≠ file.length := by
  have hfile : (List.replicate 524297 (0 : UInt8)).length = 524297 := List.length_replicate
  obtain ⟨t, ht⟩ := reaches_wrapTwice hfile
  exact ⟨_, t, hfile, ht⟩

end Tftp
