import RkUboot.Nvme.Prp

set_option autoImplicit false

/-! # NVMe transfers (`nvme/nvme.c`)

`nvme_read` and `nvme_write` split a request into commands of at most `req_size` sectors. A buffer
that is not aligned to 512 bytes goes through a bounce buffer below the end of the memory. A controller
reads the memory of a command from its PRP entries. The namespace has sectors of 512 bytes. -/

namespace Nvme

/-- `CONFIG_RK_LCD_SIZE + SZ_16M`: the bounce buffer and what lies behind it. -/
def bounceSize : Nat := 0x3000000

/-- The controller, the address of `prp_page_pool`, and the end of the memory (`gd->arch.ddr_end`),
    which has room for the bounce buffer. -/
structure Dev where
  nsize : Nat
  maxHwSectors : Nat
  pool : Nat
  ddrEnd : Nat
  maxHwSectors_pos : 0 < maxHwSectors
  bounceSize_le : bounceSize ≤ ddrEnd
  ddrEnd_aligned : 512 ∣ ddrEnd
  pool_aligned : pool % pageSize = 0

def Dev.tbuf (dev : Dev) : Nat := dev.ddrEnd - bounceSize

def Dev.reqSize (dev : Dev) : Nat := min maxReqSector dev.maxHwSectors

theorem Dev.reqSize_pos (dev : Dev) : 0 < dev.reqSize :=
  Nat.lt_min.2 ⟨by decide, dev.maxHwSectors_pos⟩

theorem Dev.reqSize_le (dev : Dev) : dev.reqSize ≤ maxReqSector := Nat.min_le_left _ _

/-- The memory, the namespace, and the results of the next commands; once the list is used up every
    command succeeds. -/
structure State where
  ram : Mem
  disk : Mem
  script : List Int

/-! ## Commands -/

/-- The controller stores the bytes of `disk` from `off` on. -/
def readSegments (disk : Mem) : Nat → List (Nat × Nat) → Mem → Mem
  | _, [], ram => ram
  | off, (a, n) :: segments, ram => readSegments disk (off + n) segments (ram.copy a disk off n)

/-- The controller fetches the bytes for `disk` from `off` on. -/
def writeSegments (ram : Mem) : Nat → List (Nat × Nat) → Mem → Mem
  | _, [], disk => disk
  | off, (a, n) :: segments, disk => writeSegments ram (off + n) segments (disk.copy off ram a n)

/-- `-ENOMEM` -/
def enomem : Int := -12

/-- What `__nvme_read` and `__nvme_write` have in common; `dma` is what the controller does with the
    memory of the command, as it reads it from the stored entries. What `prp_page_pool` held before is
    of no account. Memory that does not exist cannot be accessed. -/
def nvmeRwCmd (dev : Dev) (dma : List (Nat × Nat) → State → State) (buf lba nsec : Nat) (s : State) :
    Option (Int × State) :=
  let (length, prp1, prp2, list) := nvmeSetupPrps dev.pool (nsec * 512) buf ⟨fun _ => 0, []⟩
  let segments := readPrps (list.fetch dev.pool) prp1 prp2 length
  if length ≠ nsec * 512 ∨ dev.nsize ≤ (lba + nsec) % 2 ^ 32 then some (enomem, s)
  else if dev.ddrEnd < buf + length then none
  else
    match s.script with
    | [] => some (0, dma segments s)
    | status :: script =>
      if status ≠ 0 then some (status, { s with script := script })
      else some (0, dma segments { s with script := script })

/-- `__nvme_read` -/
def nvmeReadCmd (dev : Dev) (buf lba nsec : Nat) (s : State) : Option (Int × State) :=
  nvmeRwCmd dev (fun segments s => { s with ram := readSegments s.disk (512 * lba) segments s.ram })
    buf lba nsec s

/-- `__nvme_write` -/
def nvmeWriteCmd (dev : Dev) (buf lba nsec : Nat) (s : State) : Option (Int × State) :=
  nvmeRwCmd dev (fun segments s => { s with disk := writeSegments s.ram (512 * lba) segments s.disk })
    buf lba nsec s

/-- `nvme_flush` -/
def nvmeFlush (s : State) : Int × State := (s.script.headD 0, { s with script := s.script.tail })

/-! ## Requests -/

/-- How the loop of a request is left: by an error in the middle, which ends the function, or behind
    the last command, with its result and the count left in `nsec`. -/
inductive Requested where
  | failed (err : Int) (s : State)
  | done (err : Int) (nsec : Nat) (s : State)

/-- The loop of `nvme_read` and `nvme_write` around a command. -/
def requestLoop (cmd : Nat → Nat → Nat → State → Option (Int × State)) (reqSize : Nat) :
    Nat → Nat → Nat → Nat → State → Option Requested
  | 0, _, _, _, _ => none
  | fuel + 1, buf, lba, nsec, s =>
    if reqSize < nsec then
      match cmd buf lba reqSize s with
      | none => none
      | some (err, s) =>
        if err ≠ 0 then some (.failed err s)
        else
          requestLoop cmd reqSize fuel (buf + 512 * reqSize) ((lba + reqSize) % 2 ^ 32)
            (nsec - reqSize) s
    else
      match cmd buf lba nsec s with
      | none => none
      | some (err, s) => some (.done err nsec s)

/-- The two ranges of `n` bytes have no byte in common. -/
def Disjoint (a b n : Nat) : Prop := a + n ≤ b ∨ b + n ≤ a
  deriving Decidable

/-- `memcpy`, which has no meaning for ranges that overlap, or outside of the memory. -/
def memcpy (dev : Dev) (dst src n : Nat) (ram : Mem) : Option Mem :=
  if Disjoint dst src n ∧ dst + n ≤ dev.ddrEnd ∧ src + n ≤ dev.ddrEnd then
    some (ram.copy dst ram src n)
  else none

/-- `memset` to 0. -/
def memset (dev : Dev) (a n : Nat) (ram : Mem) : Option Mem :=
  if a + n ≤ dev.ddrEnd then some (ram.fill a 0 n) else none

/-- The end of `nvme_read` for a buffer that is not aligned; `nsec` is what the loop has left of it. -/
def copyBack (dev : Dev) (dst nsec : Nat) (s : State) : Option State :=
  match memcpy dev dst dev.tbuf (nsec * 512 % 2 ^ 32) s.ram with
  | none => none
  | some ram =>
    (memset dev dev.tbuf (nsec * 512 % 2 ^ 32) ram).map (fun ram => { s with ram := ram })

/-- `nvme_read` -/
def nvmeRead (dev : Dev) (lba dst nsec : Nat) (fuel : Nat) (s : State) : Option (Int × State) :=
  let buf := if dst % 512 ≠ 0 then dev.tbuf else dst
  match requestLoop (nvmeReadCmd dev) dev.reqSize fuel buf lba nsec s with
  | none => none
  | some (.failed err s) => some (err, s)
  | some (.done err nsec s) =>
    if dst % 512 ≠ 0 then (copyBack dev dst nsec s).map (fun s => (err, s)) else some (err, s)

/-- The start of `nvme_write` for a buffer that is not aligned. -/
def copyOut (dev : Dev) (src nsec : Nat) (s : State) : Option State :=
  (memcpy dev dev.tbuf src (nsec * 512 % 2 ^ 32) s.ram).map (fun ram => { s with ram := ram })

/-- The end of `nvme_write`. -/
def finishWrite (dev : Dev) (src : Nat) (err : Int) (nsec : Nat) (s : State) :
    Option (Int × State) :=
  let s? := if src % 512 ≠ 0 then
      (memset dev dev.tbuf (nsec * 512 % 2 ^ 32) s.ram).map (fun ram => { s with ram := ram })
    else some s
  s?.map (fun s => if err ≠ 0 then (err, s) else nvmeFlush s)

/-- `nvme_write` -/
def nvmeWrite (dev : Dev) (lba src nsec : Nat) (fuel : Nat) (s : State) : Option (Int × State) :=
  let buf := if src % 512 ≠ 0 then dev.tbuf else src
  match (if src % 512 ≠ 0 then copyOut dev src nsec s else some s) with
  | none => none
  | some s =>
    match requestLoop (nvmeWriteCmd dev) dev.reqSize fuel buf lba nsec s with
    | none => none
    | some (.failed err s) => some (err, s)
    | some (.done err nsec s) => finishWrite dev src err nsec s

/-! ## What a command does -/

variable {segments : List (Nat × Nat)} {disk ram : Mem} {a len off : Nat}

theorem readSegments_consecutive (h : Consecutive a len segments) :
    readSegments disk off segments ram = ram.copy a disk off len := by
  induction segments generalizing a len off ram with
  | nil =>
    obtain rfl : len = 0 := h
    funext x
    exact (Mem.copy_apply_out (by omega)).symm
  | cons r segments ih =>
    obtain ⟨b, n⟩ := r
    obtain ⟨rfl, hn, hrest⟩ := h
    rw [readSegments, ih hrest, ← Mem.copy_add, Nat.add_sub_cancel' hn]

theorem writeSegments_consecutive (h : Consecutive a len segments) :
    writeSegments ram off segments disk = disk.copy off ram a len := by
  induction segments generalizing a len off disk with
  | nil =>
    obtain rfl : len = 0 := h
    funext x
    exact (Mem.copy_apply_out (by omega)).symm
  | cons r segments ih =>
    obtain ⟨b, n⟩ := r
    obtain ⟨rfl, hn, hrest⟩ := h
    rw [writeSegments, ih hrest, ← Mem.copy_add, Nat.add_sub_cancel' hn]

section Commands

variable {dev : Dev} {buf lba nsec : Nat} {s : State}

/-- A command that is in range moves the buffer. -/
theorem nvmeRwCmd_eq {dma : List (Nat × Nat) → State → State} {moved : State} (hs : s.script = [])
    (hreq : nsec ≤ maxReqSector) (hrange : (lba + nsec) % 2 ^ 32 < dev.nsize)
    (hdma : ∀ segments, Consecutive buf (nsec * 512) segments → dma segments s = moved) :
    nvmeRwCmd dev dma buf lba nsec s
      = if buf + 512 * nsec ≤ dev.ddrEnd then some (0, moved) else none := by
  have hspec := nvmeSetupPrps_spec dev.pool_aligned (Nat.mul_le_mul_right 512 hreq) buf (fun _ => 0)
  unfold nvmeRwCmd
  generalize nvmeSetupPrps dev.pool (nsec * 512) buf ⟨fun _ => 0, []⟩ = r at hspec
  obtain ⟨length, prp1, prp2, list⟩ := r
  obtain ⟨rfl, hcons, -⟩ : length = nsec * 512 ∧ _ ∧ _ := hspec
  have hmoved := hdma _ hcons
  have hrefused : ¬ (nsec * 512 ≠ nsec * 512 ∨ dev.nsize ≤ (lba + nsec) % 2 ^ 32) := by
    omega
  simp only at hmoved ⊢
  rw [if_neg hrefused, hs, Nat.mul_comm 512 nsec]
  by_cases hmem : buf + nsec * 512 ≤ dev.ddrEnd
  · rw [if_neg (Nat.not_lt.2 hmem), if_pos hmem]
    simp only [hmoved]
  · rw [if_pos (Nat.lt_of_not_le hmem), if_neg hmem]

theorem nvmeReadCmd_eq (hs : s.script = []) (hreq : nsec ≤ maxReqSector)
    (hrange : (lba + nsec) % 2 ^ 32 < dev.nsize) :
    nvmeReadCmd dev buf lba nsec s
      = if buf + 512 * nsec ≤ dev.ddrEnd then
          some (0, { s with ram := s.ram.copy buf s.disk (512 * lba) (512 * nsec) })
        else none := by
  refine nvmeRwCmd_eq hs hreq hrange fun segments hseg => ?_
  rw [readSegments_consecutive hseg, Nat.mul_comm nsec]

theorem nvmeWriteCmd_eq (hs : s.script = []) (hreq : nsec ≤ maxReqSector)
    (hrange : (lba + nsec) % 2 ^ 32 < dev.nsize) :
    nvmeWriteCmd dev buf lba nsec s
      = if buf + 512 * nsec ≤ dev.ddrEnd then
          some (0, { s with disk := s.disk.copy (512 * lba) s.ram buf (512 * nsec) })
        else none := by
  refine nvmeRwCmd_eq hs hreq hrange fun segments hseg => ?_
  rw [writeSegments_consecutive hseg, Nat.mul_comm nsec]

end Commands

end Nvme
