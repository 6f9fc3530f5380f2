import RkUboot.Fastboot.Basic
import RkUboot.Lib.Bytes

set_option autoImplicit false

/-! # Attestation keys (`rkloader/attestation_key.c`)

The factory leaves the attestation keys in the last 64 KiB of the misc partition. At the next start
`load_attestation_key` hands them over to the keymaster of the trusted OS and wipes the blocks:

```
'C' 'A' 0, data size 3, real size 7, device id: size 16, bytes 20, then for RSA and for EC:
algorithm, key, certificate chain
```

A key or a certificate is a blob: its length, then its bytes. A chain is the size of its blobs, lengths
included, and then the blobs. All parts are read through one cursor that no function compares with the
end of the buffer; what keeps it inside are the limits on the lengths. -/

namespace Attestation

/-! ## Parser -/

/-- `ATAP_BLOB_LEN_MAX` -/
def blobLenMax : Nat := 2048

/-- `ATAP_CERT_CHAIN_LEN_MAX` -/
def certChainLenMax : Nat := 8192

/-- `ATAP_CERT_CHAIN_ENTRIES_MAX` -/
def certChainEntriesMax : Nat := 8

/-- The size of `keybuf`. -/
def keybufSize : Nat := 64 * 1024

/-- The cursor into `keybuf`, the ranges read so far, and the outcomes of the allocations to come; once
    these are used up every allocation succeeds. -/
structure Parser where
  cursor : Nat
  reads : List (Nat × Nat)
  mallocs : List Bool

/-- `copy_from_buf` -/
def copyFromBuf (buf : Mem) (n : Nat) (s : Parser) : List UInt8 × Parser :=
  (buf.bytes s.cursor n, { s with cursor := s.cursor + n, reads := (s.cursor, n) :: s.reads })

/-- `copy_uint32_from_buf` -/
def copyUint32FromBuf (buf : Mem) (s : Parser) : Nat × Parser :=
  (buf.u32 s.cursor, (copyFromBuf buf 4 s).2)

/-- `copy_blob_from_buf` -/
def copyBlobFromBuf (buf : Mem) (s : Parser) : Option (List UInt8) × Parser :=
  let (dataLength, s) := copyUint32FromBuf buf s
  if blobLenMax < dataLength then (none, s)
  else if dataLength = 0 then (some [], s)
  else if s.mallocs.headD true then
    let (data, s) := copyFromBuf buf dataLength { s with mallocs := s.mallocs.tail }
    (some data, s)
  else (none, { s with mallocs := s.mallocs.tail })

/-- The loop of `copy_cert_chain_from_buf`, `k` entries to go. -/
def chainLoop (buf : Mem) : Nat → Int → List (List UInt8) → Parser →
    Option (List (List UInt8)) × Parser
  | 0, _, entries, s => (some entries, s)
  | k + 1, bytesRemaining, entries, s =>
    match copyBlobFromBuf buf s with
    | (none, s) => (none, s)
    | (some data, s) =>
      let bytesRemaining := bytesRemaining - (4 + data.length)
      if bytesRemaining ≤ 0 then
        (if bytesRemaining = 0 then some (entries ++ [data]) else none, s)
      else chainLoop buf k bytesRemaining (entries ++ [data]) s

/-- `copy_cert_chain_from_buf` -/
def copyCertChainFromBuf (buf : Mem) (s : Parser) : Option (List (List UInt8)) × Parser :=
  let (certChainSize, s) := copyUint32FromBuf buf s
  if certChainLenMax < certChainSize then (none, s)
  else if certChainSize = 0 then (some [], s)
  else chainLoop buf certChainEntriesMax certChainSize [] s

/-- `validate_ca_header` -/
def validateCaHeader (buf : Mem) : Bool :=
  let dataSize := buf.u32 3
  let realSize := buf.u32 7
  if buf 0 ≠ 67 ∨ buf 1 ≠ 65 ∨ buf 2 ≠ 0 then false
  else if dataSize = 0 ∨ 1024 * 64 < dataSize then false
  else if realSize = 0 ∨ dataSize < realSize then false
  else true

/-! ## Keymaster -/

/-- `keymaster_algorithm_t` -/
inductive KeymasterAlgorithm where
  | rsa
  | ec
  deriving DecidableEq, Repr

/-- `GetKeySlotStr` -/
def getKeySlotStr : KeymasterAlgorithm → String
  | .rsa => "RSA"
  | .ec => "EC"

/-- A call of `write_to_keymaster`: the name of the file and its contents. The result is not used. -/
abbrev Write := String × List UInt8

/-- `WriteKeyToStorage`; all names are shorter than `kStorageIdLengthMax`. -/
def writeKeyToStorage (keyType : KeymasterAlgorithm) (key : List UInt8) : Write :=
  ("PrivateKey" ++ "." ++ getKeySlotStr keyType, key)

/-- `WriteCertToStorage` -/
def writeCertToStorage (keyType : KeymasterAlgorithm) (cert : List UInt8) (index : Nat) : Write :=
  ("CertificateChain" ++ "." ++ getKeySlotStr keyType ++ "." ++ toString index, cert)

/-- `WriteChainLengthToStorage` -/
def writeChainLengthToStorage (keyType : KeymasterAlgorithm) (chainLen : Nat) : Write :=
  ("CertificateChain" ++ "." ++ getKeySlotStr keyType ++ ".length", [UInt8.ofNat chainLen])

/-- The writes for a chain: its length, and its certificates in order. -/
def writeChain (keyType : KeymasterAlgorithm) (chain : List (List UInt8)) : List Write :=
  writeChainLengthToStorage keyType chain.length ::
    chain.mapIdx (fun i cert => writeCertToStorage keyType cert i)

/-- The part of `load_attestation_key` for one algorithm: whether it went through, what was written,
    and the parser. The source has it twice. -/
def loadKey (keyType : KeymasterAlgorithm) (buf : Mem) (s : Parser) : Bool × List Write × Parser :=
  let (_, s) := copyUint32FromBuf buf s
  match copyBlobFromBuf buf s with
  | (none, s) => (false, [], s)
  | (some key, s) =>
    match copyCertChainFromBuf buf s with
    | (none, s) => (false, [writeKeyToStorage keyType key], s)
    | (some chain, s) => (true, writeKeyToStorage keyType key :: writeChain keyType chain, s)

/-! ## `load_attestation_key` -/

/-- `AtapResult` -/
inductive AtapResult where
  | ok
  | errorPartitionNotFound
  | errorBlockRead
  | errorBlockWrite
  | errorInvalidHead
  | errorInvalidBlockNum
  | errorInvalidDeviceId
  | errorBufCopy
  deriving DecidableEq, Repr

/-- What a call leaves behind: its result, the storage, the calls of the keymaster in order, and the
    ranges of `keybuf` that were read. -/
structure Outcome where
  result : AtapResult
  dev : BlockDev
  writes : List Write
  reads : List (Nat × Nat)

/-- The part of `load_attestation_key` from the first algorithm on. -/
def loadKeys (keyOffset realBlockNum : Nat) (buf : Mem) (s : Parser) (dev : BlockDev) : Outcome :=
  match loadKey .rsa buf s with
  | (false, writes, s) => ⟨.errorBufCopy, dev, writes, s.reads⟩
  | (true, writes, s) =>
    match loadKey .ec buf s with
    | (false, writes', s) => ⟨.errorBufCopy, dev, writes ++ writes', s.reads⟩
    | (true, writes', s) =>
      let (ok, dev) := dev.write keyOffset realBlockNum Mem.zero 0
      ⟨if ok then .ok else .errorBlockWrite, dev, writes ++ writes', s.reads⟩

/-- The part of `load_attestation_key` behind the two reads of the storage, with the attestation
    data in `buf`. -/
def loadFrom (keyOffset realBlockNum : Nat) (mallocs : List Bool) (buf : Mem) (dev : BlockDev) :
    Outcome :=
  let (deviceIdSize, s) := copyUint32FromBuf buf ⟨16, [], mallocs⟩
  if 32 < deviceIdSize then ⟨.errorInvalidDeviceId, dev, [], s.reads⟩
  else
    let (_, s) := copyFromBuf buf deviceIdSize s
    loadKeys keyOffset realBlockNum buf s dev

/-- The first block of the attestation data; the storage takes 32-bit block numbers. -/
def keyOffset (misc : Fastboot.DiskPartition) : Nat :=
  (misc.start + misc.size + (2 ^ 32 - 128)) % 2 ^ 32

/-- The number of blocks of the attestation data. -/
def realBlockNum (realSize : Nat) : Nat := realSize / 512 + if realSize % 512 ≠ 0 then 1 else 0

/-- Model of `load_attestation_key`. -/
def loadAttestationKey (misc : Option Fastboot.DiskPartition) (mallocs : List Bool) (dev : BlockDev) :
    Outcome :=
  match misc with
  | none => ⟨.errorPartitionNotFound, dev, [], []⟩
  | some ptn =>
    match dev.read (keyOffset ptn) 1 Mem.zero 0 with
    | (false, _, dev) => ⟨.errorBlockRead, dev, [], []⟩
    | (true, caHeader, dev) =>
      let n := realBlockNum (caHeader.u32 7)
      if validateCaHeader caHeader = false then ⟨.errorInvalidHead, dev, [], []⟩
      else if n = 0 ∨ keybufSize / 512 < n then ⟨.errorInvalidBlockNum, dev, [], []⟩
      else
        match dev.read (keyOffset ptn) n Mem.zero 0 with
        | (false, _, dev) => ⟨.errorBlockRead, dev, [], []⟩
        | (true, keybuf, dev) => loadFrom (keyOffset ptn) n mallocs keybuf dev

/-! ## The cursor stays inside -/

section Bounds

variable {s : Parser} {lim : Nat}

/-- Neither the cursor nor a range that was read goes beyond `lim`. -/
def Parser.Within (s : Parser) (lim : Nat) : Prop := s.cursor ≤ lim ∧ ∀ r ∈ s.reads, r.1 + r.2 ≤ lim

theorem Parser.Within.mono {lim' : Nat} (h : s.Within lim) (hle : lim ≤ lim') : s.Within lim' :=
  ⟨Nat.le_trans h.1 hle, fun r hr => Nat.le_trans (h.2 r hr) hle⟩

theorem Parser.Within.alloc (h : s.Within lim) (mallocs : List Bool) :
    Parser.Within { s with mallocs := mallocs } lim := h

variable (buf : Mem)

theorem copyFromBuf_within (h : s.Within lim) (n : Nat) :
    (copyFromBuf buf n s).2.Within (lim + n) := by
  refine ⟨Nat.add_le_add_right h.1 n, fun r hr => ?_⟩
  rcases List.mem_cons.1 hr with rfl | hr
  · exact Nat.add_le_add_right h.1 n
  · exact Nat.le_trans (h.2 r hr) (Nat.le_add_right lim n)

theorem copyUint32FromBuf_within (h : s.Within lim) :
    (copyUint32FromBuf buf s).2.Within (lim + 4) :=
  copyFromBuf_within buf h 4

/-- A blob takes at most `ATAP_BLOB_LEN_MAX` bytes and its length. -/
theorem copyBlobFromBuf_within (h : s.Within lim) :
    (copyBlobFromBuf buf s).2.Within (lim + 2052) := by
  have hlen := copyUint32FromBuf_within buf h
  simp only [copyBlobFromBuf]
  split
  · exact hlen.mono (by omega)
  next hmax =>
    split
    · exact hlen.mono (by omega)
    split
    · have hmax' : (copyUint32FromBuf buf s).1 ≤ 2048 := Nat.le_of_not_lt hmax
      exact (copyFromBuf_within buf (hlen.alloc _) _).mono (by omega)
    · exact (hlen.alloc _).mono (by omega)

/-- Whatever the size of the chain says, at most `k` more blobs are read. -/
theorem chainLoop_within (k : Nat) (rem : Int) (entries : List (List UInt8)) (h : s.Within lim) :
    (chainLoop buf k rem entries s).2.Within (lim + 2052 * k) := by
  induction k generalizing rem entries s lim with
  | zero => exact h
  | succ k ih =>
    have hblob := copyBlobFromBuf_within buf h
    rw [chainLoop]
    generalize copyBlobFromBuf buf s = r at hblob
    obtain ⟨data, s'⟩ := r
    cases data with
    | none => exact hblob.mono (by omega)
    | some data =>
      simp only
      split
      · exact hblob.mono (by omega)
      · exact (ih _ _ hblob).mono (by omega)

theorem copyCertChainFromBuf_within (h : s.Within lim) :
    (copyCertChainFromBuf buf s).2.Within (lim + 16420) := by
  have hlen := copyUint32FromBuf_within buf h
  simp only [copyCertChainFromBuf]
  split
  · exact hlen.mono (by omega)
  · split
    · exact hlen.mono (by omega)
    · exact (chainLoop_within buf _ _ _ hlen).mono (by simp only [certChainEntriesMax]; omega)

/-- The algorithm, a blob and a chain. -/
theorem loadKey_within (keyType : KeymasterAlgorithm) (h : s.Within lim) :
    (loadKey keyType buf s).2.2.Within (lim + 18476) := by
  have hblob := copyBlobFromBuf_within buf (copyUint32FromBuf_within buf h)
  simp only [loadKey]
  generalize copyBlobFromBuf buf (copyUint32FromBuf buf s).2 = r at hblob
  obtain ⟨key, s'⟩ := r
  cases key with
  | none => exact hblob.mono (by omega)
  | some key =>
    have hchain := copyCertChainFromBuf_within buf hblob
    simp only
    generalize copyCertChainFromBuf buf s' = r at hchain
    obtain ⟨chain, s''⟩ := r
    cases chain with
    | none => exact hchain.mono (by omega)
    | some chain => exact hchain.mono (by omega)

/-- Two keys with their chains. -/
theorem loadKeys_within (offset n : Nat) (dev : BlockDev) (h : s.Within 52) :
    ∀ r ∈ (loadKeys offset n buf s dev).reads, r.1 + r.2 ≤ keybufSize := by
  have hinside : ∀ {s : Parser} {lim : Nat}, s.Within lim → lim ≤ 65536 →
      ∀ r ∈ s.reads, r.1 + r.2 ≤ keybufSize := fun h hle r hr => Nat.le_trans (h.2 r hr) hle
  have hrsa := loadKey_within buf .rsa h
  simp only [loadKeys]
  split
  next heq =>
    rw [heq] at hrsa
    exact hinside hrsa (by omega)
  next heq =>
    rw [heq] at hrsa
    have hec := loadKey_within buf .ec hrsa
    split
    next heq' =>
      rw [heq'] at hec
      exact hinside hec (by omega)
    next heq' =>
      rw [heq'] at hec
      exact hinside hec (by omega)

theorem loadFrom_within (offset n : Nat) (mallocs : List Bool) (dev : BlockDev) :
    ∀ r ∈ (loadFrom offset n mallocs buf dev).reads, r.1 + r.2 ≤ keybufSize := by
  have hstart : Parser.Within ⟨16, [], mallocs⟩ 16 := ⟨Nat.le_refl 16, fun r hr => nomatch hr⟩
  have hsize := copyUint32FromBuf_within buf hstart
  simp only [loadFrom]
  split
  · exact fun r hr => Nat.le_trans (hsize.2 r hr) (by decide)
  next hid => exact loadKeys_within buf _ _ _ ((copyFromBuf_within buf hsize _).mono (by omega))

/-- **Whatever the flash holds**, and whichever transfers and allocations fail, the parser reads inside
    `keybuf` only. -/
theorem loadAttestationKey_within (misc : Option Fastboot.DiskPartition) (mallocs : List Bool)
    (dev : BlockDev) :
    ∀ r ∈ (loadAttestationKey misc mallocs dev).reads, r.1 + r.2 ≤ keybufSize := by
  have hnone : ∀ r ∈ ([] : List (Nat × Nat)), r.1 + r.2 ≤ keybufSize := fun r hr => nomatch hr
  unfold loadAttestationKey
  split
  · exact hnone
  split
  · exact hnone
  simp only
  split
  · exact hnone
  split
  · exact hnone
  · split
    · exact hnone
    · exact loadFrom_within _ _ _ _ _

end Bounds

/-! ## The format -/

/-- A key or a certificate. -/
def encodeBlob (data : List UInt8) : List UInt8 := Mem.le32 data.length ++ data

/-- A certificate chain. -/
def encodeChain (chain : List (List UInt8)) : List UInt8 :=
  Mem.le32 (chain.flatMap encodeBlob).length ++ chain.flatMap encodeBlob

/-- A private key with its certificates. -/
structure AttestationKey where
  algorithm : Nat
  key : List UInt8
  chain : List (List UInt8)

def AttestationKey.encode (k : AttestationKey) : List UInt8 :=
  Mem.le32 k.algorithm ++ encodeBlob k.key ++ encodeChain k.chain

/-- What the factory stores. The header has five bytes that are not used. -/
structure Provision where
  dataSize : Nat
  realSize : Nat
  unused : List UInt8
  deviceId : List UInt8
  rsa : AttestationKey
  ec : AttestationKey

def Provision.encode (p : Provision) : List UInt8 :=
  [67, 65, 0] ++ Mem.le32 p.dataSize ++ Mem.le32 p.realSize ++ p.unused ++
    Mem.le32 p.deviceId.length ++ p.deviceId ++ p.rsa.encode ++ p.ec.encode

/-- The limits for a key. That on the chain counts the lengths of its entries. -/
structure AttestationKey.Ok (k : AttestationKey) : Prop where
  key : k.key.length ≤ blobLenMax
  entries : k.chain.length ≤ certChainEntriesMax
  certs : ∀ cert ∈ k.chain, cert.length ≤ blobLenMax
  chain : (k.chain.flatMap encodeBlob).length ≤ certChainLenMax

/-- The header is right, and the device id. -/
structure Provision.Headed (p : Provision) : Prop where
  unused : p.unused.length = 5
  realSize : p.encode.length ≤ p.realSize
  dataSize : p.realSize ≤ p.dataSize
  fits : p.dataSize ≤ keybufSize
  deviceId : p.deviceId.length ≤ 32

/-- The limits for the whole data. -/
structure Provision.Ok (p : Provision) : Prop extends p.Headed where
  rsa : p.rsa.Ok
  ec : p.ec.Ok

/-- The writes for a key. -/
def AttestationKey.writes (keyType : KeymasterAlgorithm) (k : AttestationKey) : List Write :=
  writeKeyToStorage keyType k.key :: writeChain keyType k.chain

/-! ## Reading the format -/

section Read

variable {buf : Mem} {s : Parser}

/-- Without failed allocations the parser goes on behind the `n` bytes it has read. -/
def Parser.After (s : Parser) (n : Nat) (s' : Parser) : Prop :=
  s'.cursor = s.cursor + n ∧ s'.mallocs = []

theorem copyUint32FromBuf_le32 {v : Nat} (h : buf.Has s.cursor (Mem.le32 v)) (hv : v < 2 ^ 32)
    (hm : s.mallocs = []) :
    ∃ s', copyUint32FromBuf buf s = (v, s') ∧ s.After 4 s' :=
  ⟨(copyUint32FromBuf buf s).2, Prod.ext (h.u32_of_lt hv) rfl, rfl, hm⟩

theorem copyBlobFromBuf_encode {data : List UInt8} (h : buf.Has s.cursor (encodeBlob data))
    (hlen : data.length ≤ blobLenMax) (hm : s.mallocs = []) :
    ∃ s', copyBlobFromBuf buf s = (some data, s') ∧ s.After (4 + data.length) s' := by
  rw [encodeBlob, Mem.has_append, Mem.length_le32] at h
  simp only [blobLenMax] at hlen
  obtain ⟨s₁, hread, hcursor, hm₁⟩ := copyUint32FromBuf_le32 h.1 (by omega) hm
  simp only [copyBlobFromBuf, hread, hm₁]
  rw [if_neg (by simp only [blobLenMax]; omega)]
  by_cases hzero : data.length = 0
  · rw [if_pos hzero, List.eq_nil_of_length_eq_zero hzero]
    exact ⟨s₁, rfl, hcursor, hm₁⟩
  rw [if_neg hzero]
  refine ⟨_, Prod.ext (congrArg some ?_) rfl, ?_, rfl⟩
  · have hbytes : buf.bytes s₁.cursor data.length = data := by
      rw [hcursor]
      exact h.2
    exact hbytes
  · show s₁.cursor + data.length = _
    omega

theorem length_encodeBlob (data : List UInt8) : (encodeBlob data).length = 4 + data.length := by
  simp [encodeBlob]

end Read

end Attestation
