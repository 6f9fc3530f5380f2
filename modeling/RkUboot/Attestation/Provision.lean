import RkUboot.Attestation.Chain

set_option autoImplicit false

/-! # Provisioning

What the factory has left in the format of `Provision.encode` is read back part by part, handed over
to the keymaster, and wiped. -/

namespace Attestation

/-! ## Reading the format -/

section Read

variable {buf : Mem} {s : Parser}

/-- The loop takes the entries and stops at the last one. -/
theorem chainLoop_encode {chain : List (List UInt8)} {k : Nat} (h : EntriesAt buf s.cursor chain)
    (hpos : 0 < chainSize chain) (hk : chain.length ≤ k) (hm : s.mallocs = []) :
    ∃ s', chainLoop buf k (chainSize chain) [] s = (some chain, s') ∧
      s.After (chainSize chain) s' := by
  have hexact : Exact buf s.cursor k (chainSize chain) := ⟨chain, h, hk, rfl⟩
  obtain ⟨entries, s', hloop, hafter, ⟨hat, -, hsize⟩, -⟩ | ⟨-, hno, -⟩ | ⟨-, hno, -⟩ :=
    chainLoop_spec buf k (chainSize chain) [] hpos hm
  · rw [hat.unique h hsize] at hloop
    exact ⟨s', hloop, hafter⟩
  · exact absurd hexact hno
  · exact absurd hexact hno

theorem copyCertChainFromBuf_encode {chain : List (List UInt8)}
    (h : buf.Has s.cursor (encodeChain chain)) (hentries : chain.length ≤ certChainEntriesMax)
    (hcerts : ∀ cert ∈ chain, cert.length ≤ blobLenMax) (hsize : chainSize chain ≤ certChainLenMax)
    (hm : s.mallocs = []) :
    ∃ s', copyCertChainFromBuf buf s = (some chain, s') ∧ s.After (4 + chainSize chain) s' := by
  rw [encodeChain, Mem.has_append, Mem.length_le32, ← chainSize] at h
  have hmax : certChainLenMax = 8192 := rfl
  obtain ⟨s₁, hread, hcursor, hm₁⟩ := copyUint32FromBuf_le32 h.1 (by omega) hm
  simp only [copyCertChainFromBuf, hread]
  rw [if_neg (by omega)]
  cases chain with
  | nil => exact ⟨s₁, rfl, hcursor, hm₁⟩
  | cons cert chain =>
    have hpos : 0 < chainSize (cert :: chain) := by
      rw [chainSize_cons]
      omega
    obtain ⟨s₂, hloop, hcursor₂, hm₂⟩ :=
      chainLoop_encode ⟨hcerts, hcursor ▸ h.2⟩ hpos hentries hm₁
    rw [if_neg hpos.ne', hloop]
    exact ⟨s₂, rfl, by omega, hm₂⟩

/-- The algorithm and the key, up to the chain. -/
theorem copyBlobFromBuf_key {k : AttestationKey} (hkey : k.key.length ≤ blobLenMax)
    (h : buf.Has s.cursor k.encode) (hm : s.mallocs = []) :
    ∃ s', copyBlobFromBuf buf (copyUint32FromBuf buf s).2 = (some k.key, s') ∧
      s.After (8 + k.key.length) s' ∧ buf.Has s'.cursor (encodeChain k.chain) := by
  rw [AttestationKey.encode, Mem.has_append, Mem.has_append, List.length_append, Mem.length_le32,
    length_encodeBlob] at h
  obtain ⟨⟨-, hblob⟩, hchain⟩ := h
  obtain ⟨s', hread, hcursor, hm'⟩ := copyBlobFromBuf_encode (s := (copyUint32FromBuf buf s).2)
    hblob hkey hm
  have hend : s'.cursor = s.cursor + (4 + (4 + k.key.length)) := hcursor.trans (Nat.add_assoc ..)
  rw [← hend] at hchain
  exact ⟨s', hread, ⟨by omega, hm'⟩, hchain⟩

/-- One algorithm. -/
theorem loadKey_encode (keyType : KeymasterAlgorithm) {k : AttestationKey} (hk : k.Ok)
    (h : buf.Has s.cursor k.encode) (hm : s.mallocs = []) :
    ∃ s', loadKey keyType buf s = (true, k.writes keyType, s') ∧ s.After k.encode.length s' := by
  obtain ⟨s₂, hread₂, ⟨hcursor₂, hm₂⟩, hchain⟩ := copyBlobFromBuf_key hk.key h hm
  obtain ⟨s₃, hread₃, hcursor₃, hm₃⟩ :=
    copyCertChainFromBuf_encode hchain hk.entries hk.certs hk.chain hm₂
  simp only [loadKey, hread₂, hread₃]
  refine ⟨s₃, rfl, ?_, hm₃⟩
  rw [AttestationKey.encode, encodeChain, List.length_append, List.length_append, List.length_append,
    length_encodeBlob, Mem.length_le32, Mem.length_le32, ← chainSize]
  omega

/-- A chain whose size counts more than the limit is not taken, after the key was written. -/
theorem loadKey_longChain (keyType : KeymasterAlgorithm) {k : AttestationKey}
    (hkey : k.key.length ≤ blobLenMax) (hlong : certChainLenMax < (k.chain.flatMap encodeBlob).length)
    (hsize : (k.chain.flatMap encodeBlob).length < 2 ^ 32)
    (h : buf.Has s.cursor k.encode) (hm : s.mallocs = []) :
    ∃ s', loadKey keyType buf s = (false, [writeKeyToStorage keyType k.key], s') := by
  obtain ⟨s₂, hread₂, ⟨-, hm₂⟩, hchain⟩ := copyBlobFromBuf_key hkey h hm
  rw [encodeChain, Mem.has_append] at hchain
  obtain ⟨s₃, hread₃, -⟩ := copyUint32FromBuf_le32 hchain.1 hsize hm₂
  simp only [loadKey, hread₂, copyCertChainFromBuf, hread₃]
  rw [if_pos hlong]
  exact ⟨s₃, rfl⟩

end Read

/-! ## Provisioning -/

section Provision

variable {p : Provision} {buf : Mem}

/-- The data behind the header. -/
theorem loadFrom_encode (hp : p.Headed) (h : buf.Has 0 p.encode) (offset n : Nat) (dev : BlockDev) :
    ∃ s, loadFrom offset n [] buf dev = loadKeys offset n buf s dev ∧ s.mallocs = [] ∧
      buf.Has s.cursor p.rsa.encode ∧ buf.Has (s.cursor + p.rsa.encode.length) p.ec.encode := by
  have hunused := hp.unused
  have hid := hp.deviceId
  simp only [Provision.encode, Mem.has_append, List.length_append, Mem.length_le32, List.length_cons,
    List.length_nil, hunused, Nat.zero_add, Nat.reduceAdd] at h
  obtain ⟨⟨⟨⟨-, hidSize⟩, -⟩, hrsa⟩, hec⟩ := h
  obtain ⟨s₁, hread₁, hcursor₁, hm₁⟩ :=
    copyUint32FromBuf_le32 (s := ⟨16, [], []⟩) hidSize (by omega) rfl
  have hcursor₂ : (copyFromBuf buf p.deviceId.length s₁).2.cursor = 20 + p.deviceId.length := by
    rw [copyFromBuf, hcursor₁]
  rw [← hcursor₂] at hrsa hec
  refine ⟨(copyFromBuf buf p.deviceId.length s₁).2, ?_, hm₁, hrsa, hec⟩
  simp only [loadFrom, hread₁]
  rw [if_neg (by omega)]

/-- Both keys are handed over, and the blocks are wiped. -/
theorem loadKeys_encode {s : Parser} (hrsaOk : p.rsa.Ok) (hecOk : p.ec.Ok) (hm : s.mallocs = [])
    (hrsa : buf.Has s.cursor p.rsa.encode)
    (hec : buf.Has (s.cursor + p.rsa.encode.length) p.ec.encode) (offset n : Nat) {dev : BlockDev}
    (hdev : dev.script = []) :
    ∃ reads, loadKeys offset n buf s dev
      = ⟨.ok, { dev with disk := dev.disk.fill (512 * offset) 0 (512 * n) },
          p.rsa.writes .rsa ++ p.ec.writes .ec, reads⟩ := by
  obtain ⟨s₁, hread₁, hcursor₁, hm₁⟩ := loadKey_encode .rsa hrsaOk hrsa hm
  rw [← hcursor₁] at hec
  obtain ⟨s₂, hread₂, -⟩ := loadKey_encode .ec hecOk hec hm₁
  refine ⟨s₂.reads, ?_⟩
  simp only [loadKeys, hread₁, hread₂]
  rw [BlockDev.write_of_nil _ _ _ _ hdev]
  rfl

theorem Provision.Headed.sizes (hp : p.Headed) :
    0 < p.realSize ∧ p.realSize ≤ p.dataSize ∧ p.dataSize ≤ 65536 := by
  have hpos : 0 < p.encode.length := by
    simp [Provision.encode]
  exact ⟨hpos.trans_le hp.realSize, hp.dataSize, hp.fits⟩

/-- The header block. -/
theorem validateCaHeader_encode (hp : p.Headed) {caHeader : Mem}
    (h : caHeader.Has 0 ([67, 65, 0] ++ Mem.le32 p.dataSize ++ Mem.le32 p.realSize)) :
    validateCaHeader caHeader = true ∧ caHeader.u32 7 = p.realSize := by
  have hsizes := hp.sizes
  simp only [Mem.has_append, Mem.has_cons, List.length_append, List.length_cons, List.length_nil,
    Mem.length_le32, Nat.zero_add, Nat.reduceAdd] at h
  obtain ⟨⟨⟨h0, h1, h2, -⟩, hdataSize⟩, hrealSize⟩ := h
  have hu3 : caHeader.u32 3 = p.dataSize := hdataSize.u32_of_lt (by omega)
  have hu7 : caHeader.u32 7 = p.realSize := hrealSize.u32_of_lt (by omega)
  refine ⟨?_, hu7⟩
  simp only [validateCaHeader, hu3, hu7]
  rw [if_neg (by simp [h0, h1, h2]), if_neg (by omega), if_neg (by omega)]

/-- Up to the parser. -/
theorem loadAttestationKey_eq (hp : p.Headed) {ptn : Fastboot.DiskPartition} {dev : BlockDev}
    (hdev : dev.script = []) (h : dev.disk.Has (512 * keyOffset ptn) p.encode) :
    ∃ keybuf : Mem, keybuf.Has 0 p.encode ∧ loadAttestationKey (some ptn) [] dev
      = loadFrom (keyOffset ptn) (realBlockNum p.realSize) [] keybuf dev := by
  have hsizes := hp.sizes
  have hblocks : p.realSize ≤ 512 * realBlockNum p.realSize ∧ realBlockNum p.realSize ≤ 128 := by
    unfold realBlockNum
    split <;> omega
  have hprefix : (Mem.zero.copy 0 dev.disk (512 * keyOffset ptn) (512 * 1)).Has 0
      ([67, 65, 0] ++ Mem.le32 p.dataSize ++ Mem.le32 p.realSize) := by
    refine Mem.Has.copy ?_ (by simp)
    simp only [Provision.encode, Mem.has_append] at h ⊢
    exact h.1.1.1.1.1
  obtain ⟨hvalid, hsize⟩ := validateCaHeader_encode hp hprefix
  refine ⟨Mem.zero.copy 0 dev.disk (512 * keyOffset ptn) (512 * realBlockNum p.realSize),
    Mem.Has.copy h (hp.realSize.trans hblocks.1), ?_⟩
  have hlimit : keybufSize / 512 = 128 := rfl
  simp only [loadAttestationKey, BlockDev.read_of_nil _ _ _ _ hdev, hvalid, hsize]
  rw [if_neg (by decide), if_neg (by omega)]

/-- **Provisioning.** Attestation data within the limits is handed over completely and in order, and
    then wiped. And no contents of the storage make the parser read outside of `keybuf`. -/
theorem loadAttestationKey_provision (hp : p.Ok) {ptn : Fastboot.DiskPartition} {dev : BlockDev}
    (hdev : dev.script = []) (h : dev.disk.Has (512 * keyOffset ptn) p.encode) :
    (∃ reads, loadAttestationKey (some ptn) [] dev
      = ⟨.ok, { dev with disk :=
            dev.disk.fill (512 * keyOffset ptn) 0 (512 * realBlockNum p.realSize) },
          p.rsa.writes .rsa ++ p.ec.writes .ec, reads⟩) ∧
      ∀ misc mallocs dev', ∀ r ∈ (loadAttestationKey misc mallocs dev').reads,
        r.1 + r.2 ≤ keybufSize := by
  refine ⟨?_, loadAttestationKey_within⟩
  obtain ⟨keybuf, hkeybuf, heq⟩ := loadAttestationKey_eq hp.toHeaded hdev h
  obtain ⟨s, hkeys, hm, hrsa, hec⟩ := loadFrom_encode hp.toHeaded hkeybuf (keyOffset ptn)
    (realBlockNum p.realSize) dev
  rw [heq, hkeys]
  exact loadKeys_encode hp.rsa hp.ec hm hrsa hec _ _ hdev

/-- An RSA key without a certificate, and an EC key with one. -/
def bareKeys : Provision where
  dataSize := 64
  realSize := 64
  unused := [0, 0, 0, 0, 0]
  deviceId := [49, 50]
  rsa := ⟨1, [7, 8, 9], []⟩
  ec := ⟨3, [5], [[6]]⟩

/-- The last 64 KiB of a partition of 64 KiB. -/
def miscPartition : Fastboot.DiskPartition := ⟨0, 128, 512, [], []⟩

theorem loadAttestationKey_provision_bareKeys :
    (∃ reads, loadAttestationKey (some miscPartition) [] ⟨Mem.ofList bareKeys.encode, []⟩
      = ⟨.ok, ⟨(Mem.ofList bareKeys.encode).fill (512 * keyOffset miscPartition) 0
            (512 * realBlockNum bareKeys.realSize), []⟩,
          bareKeys.rsa.writes .rsa ++ bareKeys.ec.writes .ec, reads⟩) ∧
      ∀ misc mallocs dev', ∀ r ∈ (loadAttestationKey misc mallocs dev').reads,
        r.1 + r.2 ≤ keybufSize :=
  loadAttestationKey_provision
    ⟨⟨by decide, by decide, by decide, by decide, by decide⟩,
      ⟨by decide, by decide, by decide, by decide⟩, ⟨by decide, by decide, by decide, by decide⟩⟩
    rfl (Mem.has_ofList _)

/-- Four certificates of 2048 bytes. -/
def fourCerts : Provision where
  dataSize := 65536
  realSize := 65536
  unused := [0, 0, 0, 0, 0]
  deviceId := []
  rsa := ⟨1, [], List.replicate 4 (List.replicate 2048 48)⟩
  ec := ⟨3, [], []⟩

theorem length_fourCerts : (fourCerts.rsa.chain.flatMap encodeBlob).length = 8208 := by
  rw [Mem.length_flatMap_of_length (w := 2052) (fun cert hcert => ?_)]
  · rfl
  · rw [length_encodeBlob, List.eq_of_mem_replicate hcert, List.length_replicate]

/-- The certificates have 8192 bytes together, but the chain is refused: with the lengths of its
    entries it is 8208 bytes long. -/
theorem loadAttestationKey_fourCerts :
    fourCerts.rsa.key.length ≤ blobLenMax ∧ fourCerts.rsa.chain.length ≤ certChainEntriesMax ∧
      (∀ cert ∈ fourCerts.rsa.chain, cert.length ≤ blobLenMax) ∧
      (fourCerts.rsa.chain.map List.length).sum = 8192 ∧ fourCerts.ec.Ok ∧ fourCerts.Headed ∧
      (loadAttestationKey (some miscPartition) [] ⟨Mem.ofList fourCerts.encode, []⟩).result
        = .errorBufCopy ∧
      (loadAttestationKey (some miscPartition) [] ⟨Mem.ofList fourCerts.encode, []⟩).writes
        = [("PrivateKey.RSA", [])] := by
  have hlen := length_fourCerts
  have hheaded : fourCerts.Headed := by
    refine ⟨rfl, ?_, Nat.le_refl _, Nat.le_refl _, by decide⟩
    simp only [Provision.encode, AttestationKey.encode, encodeChain, List.length_append,
      Mem.length_le32, hlen]
    decide
  have hdisk : (BlockDev.mk (Mem.ofList fourCerts.encode) []).disk.Has
      (512 * keyOffset miscPartition) fourCerts.encode := Mem.has_ofList _
  obtain ⟨keybuf, hkeybuf, heq⟩ := loadAttestationKey_eq hheaded rfl hdisk
  obtain ⟨s, hkeys, hm, hrsa, -⟩ := loadFrom_encode hheaded hkeybuf (keyOffset miscPartition)
    (realBlockNum fourCerts.realSize) ⟨Mem.ofList fourCerts.encode, []⟩
  obtain ⟨s', hread⟩ := loadKey_longChain .rsa (by decide)
    (by rw [hlen]; decide) (by rw [hlen]; decide) hrsa hm
  have hlengths : fourCerts.rsa.chain.map List.length = [2048, 2048, 2048, 2048] := by
    rw [fourCerts, List.map_replicate, List.length_replicate]
    rfl
  rw [heq, hkeys, loadKeys, hread]
  refine ⟨by decide, by decide, ?_, ?_, ⟨by decide, by decide, by decide, by decide⟩, hheaded, rfl,
    rfl⟩
  · intro cert hcert
    rw [List.eq_of_mem_replicate hcert, List.length_replicate]
    exact le_rfl
  · rw [hlengths]
    rfl

end Provision

end Attestation
