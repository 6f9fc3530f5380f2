import RkUboot.Lib.Bytes

set_option autoImplicit false

/-! # Reassembly of IP packets: `__NetDefragment` of `net/net.c`

Fragments of one packet are collected in `pkt_buff`, behind the IP header of the first one that
arrives. What is missing is a doubly linked list of holes; the descriptor of a hole is kept in its
first 8 bytes and says where the hole ends and, as numbers of 8-byte blocks, which holes come before
and behind it (0 for none).

Addresses are those of `pkt_buff`. The function has no result here when it reads or writes outside
of the buffer or of the received packet, or when the walk through the holes does not end: there are
no more than `holeSlots` descriptors in the buffer, so that a longer walk goes in a circle. -/

namespace Net

/-- `IP_PKTSIZE`, with the default of `CONFIG_NET_MAXDEFRAG` -/
def ipPktsize : Nat := 16384 + 100

/-- `IP_HDR_SIZE` -/
def ipHdrSize : Nat := 20

/-- `IP_MAXUDP` -/
def ipMaxudp : Nat := ipPktsize - ipHdrSize

/-- The number of 8-byte blocks behind the header. -/
def holeSlots : Nat := 2058

/-! ## Packets -/

/-- `ntohs` of the field at `k`. -/
def be16 (bytes : List UInt8) (k : Nat) : Nat :=
  (bytes.getD k 0).toNat * 256 + (bytes.getD (k + 1) 0).toNat

/-- A packet as `NetReceive` passes it on: there are the headers, and as many bytes as `ip_len`
    says. -/
structure Packet where
  bytes : List UInt8
  header_le : 28 ≤ bytes.length
  ipLen_le : be16 bytes 2 ≤ bytes.length

namespace Packet

variable (p : Packet)

def ipLen : Nat := be16 p.bytes 2

def ipId : Nat := be16 p.bytes 4

def ipOff : Nat := be16 p.bytes 6

/-- `ip_off & IP_OFFS` -/
def offset8 : Nat := p.ipOff % 8192

/-- `ip_off & IP_FLAGS_MFRAG` -/
def more : Bool := p.ipOff / 8192 % 2 == 1

def start : Nat := p.offset8 * 8

/-- The length of the fragment, an `int`. -/
def len : Int := p.ipLen - ipHdrSize

/-- Where the fragment ends. -/
def stop : Int := p.start + p.len

end Packet

/-! ## Holes -/

/-- The address of a descriptor. -/
def holeAddr (i : Nat) : Nat := ipHdrSize + 8 * i

def lastByte (m : Mem) (i : Nat) : Nat := m.u16 (holeAddr i)

def nextHole (m : Mem) (i : Nat) : Nat := m.u16 (holeAddr i + 2)

def prevHole (m : Mem) (i : Nat) : Nat := m.u16 (holeAddr i + 4)

def setLastByte (m : Mem) (i v : Nat) : Mem := m.set16 (holeAddr i) v

def setNextHole (m : Mem) (i v : Nat) : Mem := m.set16 (holeAddr i + 2) v

def setPrevHole (m : Mem) (i v : Nat) : Mem := m.set16 (holeAddr i + 4) v

/-! ## The function -/

/-- The static variables. -/
structure Defrag where
  pktBuff : Mem
  firstHole : Nat
  totalLen : Nat

/-- `localip->ip_id` -/
def Defrag.ipId (s : Defrag) : Nat := (s.pktBuff 4).toNat * 256 + (s.pktBuff 5).toNat

/-- The fragment is of a new or of a different packet. -/
def Defrag.Fresh (s : Defrag) (p : Packet) : Prop := s.totalLen = 0 ∨ s.ipId ≠ p.ipId
  deriving Decidable

/-- A new packet is one hole. -/
def Defrag.reset (s : Defrag) (p : Packet) : Defrag where
  pktBuff := (setPrevHole (setNextHole (setLastByte s.pktBuff 0 65535) 0 0) 0 0).copy 0 (Mem.ofList p.bytes) 0
    ipHdrSize
  firstHole := 0
  totalLen := 65535

/-- The search for the first hole that does not end before the fragment: no hole that far away is
    `some none`. -/
def walk (m : Mem) (start : Nat) : Nat → Nat → Option (Option Nat)
  | 0, _ => none
  | fuel + 1, i =>
    if holeSlots ≤ i then none
    else if lastByte m i < start then
      if nextHole m i = 0 then some none else walk m start fuel (nextHole m i)
    else some (some i)

/-- Hole `i` is removed; the result says if it was the last one. -/
def removeHole (s : Defrag) (i : Nat) : Option (Bool × Defrag) :=
  let prev := prevHole s.pktBuff i
  let next := nextHole s.pktBuff i
  if prev = 0 ∧ next = 0 then some (true, s)
  else if prev = 0 then
    if holeSlots ≤ next then none
    else some (false, { s with firstHole := next, pktBuff := setPrevHole s.pktBuff next 0 })
  else if next = 0 then
    if holeSlots ≤ prev then none
    else some (false, { s with pktBuff := setNextHole s.pktBuff prev 0 })
  else
    if holeSlots ≤ next ∨ holeSlots ≤ prev then none
    else some (false, { s with pktBuff := setNextHole (setPrevHole s.pktBuff next prev) prev next })

/-- Hole `i` now starts at `new`. -/
def moveHole (s : Defrag) (i new : Nat) : Option (Bool × Defrag) :=
  if holeSlots ≤ new then none
  else
    let m := s.pktBuff.copy (holeAddr new) s.pktBuff (holeAddr i) 8
    let next := nextHole m new
    if next ≠ 0 ∧ holeSlots ≤ next then none
    else
      let m := if next ≠ 0 then setPrevHole m next new else m
      let prev := prevHole m new
      if prev = 0 then some (false, { s with firstHole := new, pktBuff := m })
      else if holeSlots ≤ prev then none
      else some (false, { s with pktBuff := setNextHole m prev new })

/-- Hole `i` ends at `start`, and what is left of it starts at `new`. -/
def splitHole (s : Defrag) (i new start : Nat) : Option (Bool × Defrag) :=
  if holeSlots ≤ new then none
  else
    let m := s.pktBuff.copy (holeAddr new) s.pktBuff (holeAddr i) 8
    let m := setPrevHole (setNextHole (setLastByte m i start) i new) new i
    let next := nextHole m new
    if next = 0 then some (false, { s with pktBuff := m })
    else if holeSlots ≤ next then none
    else some (false, { s with pktBuff := setPrevHole m next new })

/-- The hole list is fixed for a fragment that overlaps with hole `i`. -/
def fixHoles (s : Defrag) (p : Packet) (i : Nat) : Option (Bool × Defrag) :=
  let last : Int := lastByte s.pktBuff i
  let new := (p.offset8 + p.len.tdiv 8).toNat
  if p.offset8 ≤ i ∧ last ≤ p.stop then removeHole s i
  else if last ≤ p.stop then some (false, { s with pktBuff := setLastByte s.pktBuff i p.start })
  else if p.offset8 ≤ i then moveHole s i new
  else splitHole s i new p.start

/-- The last fragment ends the hole that it is in. -/
def truncateHole (s : Defrag) (p : Packet) (i : Nat) : Defrag :=
  if p.more then s
  else { s with totalLen := p.stop.toNat, pktBuff := setLastByte s.pktBuff i p.stop.toNat }

/-- The fragment is copied; its length is taken as a `size_t`. -/
def copyFragment (s : Defrag) (p : Packet) : Option Defrag :=
  if p.len < 0 ∨ ipPktsize < ipHdrSize + p.stop ∨ p.bytes.length < ipHdrSize + p.len then none
  else some { s with
    pktBuff := s.pktBuff.copy (ipHdrSize + p.start) (Mem.ofList p.bytes) ipHdrSize p.len.toNat }

/-- The complete packet: its length, and the header with the length of the payload. -/
def complete (s : Defrag) : Nat × Defrag :=
  (s.totalLen + ipHdrSize, { s with
    pktBuff := (s.pktBuff.set8 2 (UInt8.ofNat (s.totalLen / 256))).set8 3 (UInt8.ofNat s.totalLen) })

/-- Model of `__NetDefragment`: the length `*lenp` if it returns the packet in `pkt_buff`. -/
def netDefragment (s : Defrag) (p : Packet) : Option (Option Nat × Defrag) :=
  -- `start + len` is compared as a `size_t`
  if p.stop < 0 ∨ ipMaxudp < p.stop then some (none, s)
  else
    let s := if s.Fresh p then s.reset p else s
    match walk s.pktBuff p.start holeSlots s.firstHole with
    | none => none
    | some none => some (none, s)
    | some (some i) =>
      if p.offset8 + (p.len + 7).tdiv 8 ≤ i then some (none, s)
      else
        match fixHoles (truncateHole s p i) p i with
        | none => none
        | some (done, s) =>
          match copyFragment s p with
          | none => none
          | some s => if done then some (some (complete s).1, (complete s).2) else some (none, s)

end Net
