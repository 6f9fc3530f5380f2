import RkUboot.Lib.Mem

set_option autoImplicit false

/-! # PBA access (`mediaboot/sdhciBoot.c`, `mediaboot/sdmmcBoot.c`)

A PBA transfer moves records of 528 bytes, of which 512 are stored in a sector. It goes through a
bounce buffer in chunks of 32 sectors; the cursor is a `uint16`, and every chunk has
`MIN(nSec, 32)` sectors, the last one included. So the number of sectors is rounded up to whole
chunks once there is more than one, and a count close to 65536 sends the cursor back to 0. The
transfers are exact for the counts up to 32 and the multiples of 32. -/

namespace MediaBoot

/-! ## The card -/

/-- The partition of an eMMC that is accessed. -/
inductive Part where
  | data
  | boot
  | boot2
  deriving DecidableEq, Repr

/-- The sectors of a card, by partition, and which of the next transfers fail. -/
structure Card where
  sectors : Part → UInt32 → Fin 512 → UInt8
  fails : List Bool

/-- The entry of `gSdCardInfoTbl` and `gEmmcBootPart`. -/
structure CardInfo where
  accessPart : Part
  emmcBootPart : Part
  fwPartOffset : UInt32
  bootCapSize : UInt32

/-- The card and the bounce buffer (`Sdhci_Data`, `sdmmc_Data`). -/
structure State where
  card : Card
  info : CardInfo
  data : Mem

/-- Write `cnt` sectors of the bounce buffer from `start` on. -/
def blockWrite (part : Part) (start : UInt32) (cnt : Nat) (s : State) : Bool × State :=
  if s.card.fails.headD false then
    (false, { s with card := { s.card with fails := s.card.fails.tail } })
  else
    (true, { s with card := {
      sectors := fun q n b =>
        if q = part ∧ (n - start).toNat < cnt then s.data (512 * (n - start).toNat + b)
        else s.card.sectors q n b
      fails := s.card.fails.tail } })

/-- Read `cnt` sectors from `start` on to the bounce buffer. -/
def blockRead (part : Part) (start : UInt32) (cnt : Nat) (s : State) : Bool × State :=
  if s.card.fails.headD false then
    (false, { s with card := { s.card with fails := s.card.fails.tail } })
  else
    (true, { s with
      card := { s.card with fails := s.card.fails.tail }
      data := fun x =>
        if x < 512 * cnt then
          s.card.sectors part (start + UInt32.ofNat (x / 512)) ⟨x % 512, Nat.mod_lt x (by decide)⟩
        else s.data x })

/-! ## The loops -/

def pageSizeLimit : Nat := 32

/-- The sectors of a chunk. -/
def chunkSectors (nSec : UInt32) : Nat := min nSec.toNat pageSizeLimit

/-- Copy `cnt` records from record `len` on to the bounce buffer. -/
def gatherRecords (buf : Mem) (len : Nat) : Nat → Mem → Mem
  | 0, data => data
  | i + 1, data => (gatherRecords buf len i data).copy (512 * i) buf (528 * (len + i)) 512

/-- Copy `cnt` sectors of the bounce buffer to the records from `len` on. -/
def scatterRecords (data : Mem) (len : Nat) : Nat → Mem → Mem
  | 0, buf => buf
  | i + 1, buf => (scatterRecords data len i buf).copy (528 * (len + i)) data (512 * i) 512

/-- `for (len = 0; len < nSec; len += pageSizeLimit)` with a `uint16` cursor; the body says whether to
    go on. -/
def pbaLoop {σ : Type} (body : UInt16 → σ → Bool × σ) (nSec : UInt32) :
    Nat → UInt16 → σ → Option (Bool × σ)
  | 0, _, _ => none
  | fuel + 1, len, s =>
    if len.toNat < nSec.toNat then
      let r := body len s
      if r.1 then pbaLoop body nSec fuel (len + UInt16.ofNat pageSizeLimit) r.2 else some (false, r.2)
    else some (true, s)

/-- A chunk of a write; `check` tells whether an error ends the loop. -/
def writeChunk (check : Bool) (part : Part) (start nSec : UInt32) (buf : Mem) (len : UInt16)
    (s : State) : Bool × State :=
  let s := { s with data := gatherRecords buf len.toNat (chunkSectors nSec) s.data }
  let r := blockWrite part (start + len.toUInt32) (chunkSectors nSec) s
  (r.1 || !check, r.2)

/-- A chunk of a read to the buffer `buf`. -/
def readChunk (check : Bool) (part : Part) (start nSec : UInt32) (len : UInt16) (s : State × Mem) :
    Bool × (State × Mem) :=
  let r := blockRead part (start + len.toUInt32) (chunkSectors nSec) s.1
  if check ∧ r.1 = false then (false, (r.2, s.2))
  else (true, (r.2, scatterRecords r.2.data len.toNat (chunkSectors nSec) s.2))

/-- The value that a loop makes the function return: 0, or -1 as a `uint32`. -/
def returnCode {σ : Type} (r : Bool × σ) : UInt32 × σ := (if r.1 then 0 else 0xFFFFFFFF, r.2)

def writeLoop (check : Bool) (part : Part) (start nSec : UInt32) (buf : Mem) (fuel : Nat) (s : State) :
    Option (UInt32 × State) :=
  (pbaLoop (writeChunk check part start nSec buf) nSec fuel 0 s).map returnCode

def readLoop (check : Bool) (part : Part) (start nSec : UInt32) (fuel : Nat) (s : State × Mem) :
    Option (UInt32 × (State × Mem)) :=
  (pbaLoop (readChunk check part start nSec) nSec fuel 0 s).map returnCode

/-! ## The functions -/

def emmcBootPartSize : UInt32 := 1024

def sdCardBootPartOffset : UInt32 := 64

def sdCardFwPartOffset : UInt32 := 8192

/-- `SdhciBootWritePBA` -/
def sdhciBootWritePBA (pba nSec : UInt32) (buf : Mem) (fuel : Nat) (s : State) :
    Option (UInt32 × State) :=
  if emmcBootPartSize * 5 ≤ pba + nSec then some (0, s)
  else writeLoop true .data (pba + sdCardBootPartOffset) nSec buf fuel s

/-- `SdhciBootReadPBA` -/
def sdhciBootReadPBA (pba nSec : UInt32) (fuel : Nat) (s : State × Mem) :
    Option (UInt32 × (State × Mem)) :=
  if emmcBootPartSize * 5 ≤ pba + nSec then some (0, s)
  else readLoop true .data (pba + sdCardBootPartOffset) nSec fuel s

/-- `EmmcSetBootPart`; the card is switched if it is set to something else. -/
def emmcSetBootPart (bootPart accessPart : Part) (s : State) : State :=
  { s with info := { s.info with emmcBootPart := bootPart, accessPart := accessPart } }

/-- `SdmmcBootWritePBA`. `SDM_Write` is not asked for errors. -/
def sdmmcBootWritePBA (pba nSec : UInt32) (buf : Mem) (fuel : Nat) (s : State) :
    Option (UInt32 × State) :=
  if 0 < s.info.bootCapSize then
    if emmcBootPartSize * 2 ≤ pba + nSec then some (0, s)
    else if emmcBootPartSize ≤ pba + nSec then
      writeLoop false .boot2 (pba &&& (emmcBootPartSize - 1)) nSec buf fuel
        (emmcSetBootPart .boot .boot2 s)
    else writeLoop false .boot pba nSec buf fuel (emmcSetBootPart .boot2 .boot s)
  else if s.info.fwPartOffset = sdCardFwPartOffset then
    if emmcBootPartSize * 5 ≤ pba + nSec then some (0, s)
    else writeLoop false s.info.accessPart (pba + sdCardBootPartOffset) nSec buf fuel s
  else some (0xFFFFFFFF, s)

/-- `SdmmcBootReadPBA`. An address behind the end is reduced and not refused. -/
def sdmmcBootReadPBA (pba nSec : UInt32) (fuel : Nat) (s : State × Mem) :
    Option (UInt32 × (State × Mem)) :=
  if 0 < s.1.info.bootCapSize then
    let pba := if emmcBootPartSize * 2 ≤ pba + nSec then pba &&& (emmcBootPartSize - 1) else pba
    if emmcBootPartSize ≤ pba + nSec then
      readLoop false .boot2 (pba &&& (emmcBootPartSize - 1)) nSec fuel
        (emmcSetBootPart .boot .boot2 s.1, s.2)
    else readLoop false .boot pba nSec fuel (emmcSetBootPart .boot .boot s.1, s.2)
  else if s.1.info.fwPartOffset = sdCardFwPartOffset then
    let pba := if emmcBootPartSize * 5 ≤ pba + nSec then pba &&& (emmcBootPartSize - 1) else pba
    readLoop false s.1.info.accessPart (pba + sdCardBootPartOffset) nSec fuel s
  else some (0xFFFFFFFF, s)

/-! ## The property -/

/-- No transfer fails, and PBA addresses have a fixed offset. -/
structure FixedOffset (s : State) : Prop where
  fails : s.card.fails = []
  bootCapSize : s.info.bootCapSize = 0
  fwPartOffset : s.info.fwPartOffset = sdCardFwPartOffset

/-- The write returns, and of all sectors the `n` from `first` on have changed: sector `i` of them
    holds the first 512 bytes of record `i`. -/
def WritesExactly (f : Mem → Nat → State → Option (UInt32 × State)) (part : State → Part)
    (first : UInt32) (n : Nat) : Prop :=
  ∀ buf s, FixedOffset s → ∃ fuel s', f buf fuel s = some (0, s') ∧
    ∀ q m b, s'.card.sectors q m b =
      if q = part s ∧ (m - first).toNat < n then buf (528 * (m - first).toNat + b)
      else s.card.sectors q m b

/-- The read returns, and of all bytes of the buffer the first 512 of the first `n` records have
    changed: record `i` holds sector `i` from `first` on. -/
def ReadsExactly (f : Nat → State × Mem → Option (UInt32 × (State × Mem))) (part : State → Part)
    (first : UInt32) (n : Nat) : Prop :=
  ∀ buf s, FixedOffset s → ∃ fuel s' buf', f fuel (s, buf) = some (0, (s', buf')) ∧
    s'.card.sectors = s.card.sectors ∧
    ∀ i (b : Fin 528), buf' (528 * i + b) =
      if h : i < n ∧ b.1 < 512 then s.card.sectors (part s) (first + UInt32.ofNat i) ⟨b, h.2⟩
      else buf (528 * i + b)

/-! ## Chunks -/

variable {b c fuel : Nat}

section Copies

variable {buf data : Mem} {len cnt : Nat}

theorem gatherRecords_apply {i : Nat} (hi : i < cnt) (hb : b < 512) :
    gatherRecords buf len cnt data (512 * i + b) = buf (528 * (len + i) + b) := by
  induction cnt with
  | zero => omega
  | succ cnt ih =>
    rw [gatherRecords]
    rcases Nat.lt_succ_iff_lt_or_eq.1 hi with hlt | rfl
    · rw [Mem.copy_apply_out (by omega)]
      exact ih hlt
    · rw [Mem.copy_apply_in (by omega) (by omega)]
      congr 1
      omega

theorem scatterRecords_apply (i : Nat) (hb : b < 528) :
    scatterRecords data len cnt buf (528 * i + b)
      = if len ≤ i ∧ i < len + cnt ∧ b < 512 then data (512 * (i - len) + b)
        else buf (528 * i + b) := by
  induction cnt with
  | zero => rw [if_neg (by omega)]; rfl
  | succ cnt ih =>
    rw [scatterRecords]
    by_cases hin : i = len + cnt ∧ b < 512
    · rw [Mem.copy_apply_in (by omega) (by omega), if_pos (by omega)]
      congr 1
      omega
    · rw [Mem.copy_apply_out (by omega), ih]
      by_cases hold : len ≤ i ∧ i < len + cnt ∧ b < 512
      · rw [if_pos hold, if_pos (by omega)]
      · rw [if_neg hold, if_neg (by omega)]

end Copies

/-- The offset from a later sector. -/
theorem toNat_sub_add (m start w : UInt32) :
    (m - (start + w)).toNat
      = if w.toNat ≤ (m - start).toNat then (m - start).toNat - w.toNat
        else (m - start).toNat + 2 ^ 32 - w.toNat := by
  have hstart := start.toNat_lt
  have hw := w.toNat_lt
  rw [UInt32.toNat_sub, UInt32.toNat_sub, UInt32.toNat_add]
  split <;> omega

theorem toNat_add_sub (start w : UInt32) : (start + w - start).toNat = w.toNat := by
  have hstart := start.toNat_lt
  have hw := w.toNat_lt
  rw [UInt32.toNat_sub, UInt32.toNat_add]
  omega

variable {len : UInt16}

section Loop

variable {σ : Type} {body : UInt16 → σ → Bool × σ} {nSec : UInt32} {s : σ}

/-- The state after the first `c` chunks. -/
def chunkState (body : UInt16 → σ → Bool × σ) (s : σ) : Nat → σ
  | 0 => s
  | c + 1 => (body (UInt16.ofNat (pageSizeLimit * c)) (chunkState body s c)).2

theorem toNat_cursor (h : pageSizeLimit * c < 2 ^ 16) :
    (UInt16.ofNat (pageSizeLimit * c)).toNat = pageSizeLimit * c := by
  rw [UInt16.toNat_ofNat']
  exact Nat.mod_eq_of_lt h

/-- The loop runs the chunks until the cursor has got to `nSec`. -/
theorem pbaLoop_chunks
    (hok : ∀ c, (body (UInt16.ofNat (pageSizeLimit * c)) (chunkState body s c)).1 = true) (k c : Nat)
    (hend : nSec.toNat ≤ pageSizeLimit * (c + k))
    (hmore : ∀ j < k, pageSizeLimit * (c + j) < nSec.toNat)
    (hfit : pageSizeLimit * (c + k) < 2 ^ 16) :
    pbaLoop body nSec (k + 1) (UInt16.ofNat (pageSizeLimit * c)) (chunkState body s c)
      = some (true, chunkState body s (c + k)) := by
  have hcursor : ∀ c, 32 * c < 2 ^ 16 → (UInt16.ofNat (32 * c)).toNat = 32 * c :=
    fun c hc => toNat_cursor hc
  unfold pageSizeLimit at *
  induction k generalizing c with
  | zero =>
    rw [pbaLoop, hcursor c hfit, if_neg (by omega)]
    rfl
  | succ k ih =>
    have hlt := hmore 0 (Nat.succ_pos k)
    have hnext : UInt16.ofNat (32 * c) + UInt16.ofNat 32 = UInt16.ofNat (32 * (c + 1)) := by
      rw [Nat.mul_succ, UInt16.ofNat_add]
    have hstep := ih (c + 1) (by omega) (fun j hj => by
      have := hmore (j + 1) (Nat.succ_lt_succ hj)
      omega) (by omega)
    rw [pbaLoop, hcursor c (by omega), if_pos (by omega)]
    simp only [hok c, if_true]
    rw [pageSizeLimit, hnext, show c + (k + 1) = c + 1 + k by omega]
    exact hstep

/-- The result does not depend on the fuel. -/
theorem pbaLoop_unique {fuel' : Nat} {r r' : Bool × σ}
    (h : pbaLoop body nSec fuel len s = some r) (h' : pbaLoop body nSec fuel' len s = some r') :
    r = r' := by
  induction fuel generalizing fuel' len s with
  | zero => exact absurd h nofun
  | succ fuel ih =>
    cases fuel' with
    | zero => exact absurd h' nofun
    | succ fuel' =>
      rw [pbaLoop] at h h'
      simp only at h h'
      split at h
      · next hlt =>
        rw [if_pos hlt] at h'
        split at h
        · next hgo =>
          rw [if_pos hgo] at h'
          exact ih h h'
        · next hgo =>
          rw [if_neg hgo] at h'
          rw [← Option.some.injEq, ← h, ← h']
      · next hlt =>
        rw [if_neg hlt] at h'
        rw [← Option.some.injEq, ← h, ← h']

/-- With more than 65504 sectors the cursor comes back to 0, and the loop never ends. -/
theorem pbaLoop_stuck (inv : σ → Prop)
    (hbody : ∀ len s, inv s → (body len s).1 = true ∧ inv (body len s).2)
    (hlarge : 65504 < nSec.toNat) (fuel : Nat) (hlen : len.toNat % pageSizeLimit = 0)
    (hs : inv s) : pbaLoop body nSec fuel len s = none := by
  have hstep : (UInt16.ofNat pageSizeLimit).toNat = 32 := rfl
  unfold pageSizeLimit at *
  induction fuel generalizing len s with
  | zero => rfl
  | succ fuel ih =>
    have hlt := len.toNat_lt
    obtain ⟨hgo, hinv⟩ := hbody len s hs
    rw [pbaLoop, if_pos (by omega)]
    simp only [hgo, if_true]
    refine ih ?_ hinv
    rw [UInt16.toNat_add, pageSizeLimit, hstep]
    omega

end Loop

/-! ## Exact counts -/

/-- The number of chunks. -/
def chunkCount (nSec : UInt32) : Nat := (nSec.toNat + (pageSizeLimit - 1)) / pageSizeLimit

/-- The counts for which the chunks make up the transfer. -/
def ExactCount (nSec : UInt32) : Prop := nSec.toNat ≤ pageSizeLimit ∨ pageSizeLimit ∣ nSec.toNat

/-- The sector or record `d` is one of those that the chunks cover. -/
def Covered (nSec : UInt32) (c d : Nat) : Prop :=
  d / pageSizeLimit < c ∧ d % pageSizeLimit < chunkSectors nSec
  deriving Decidable

variable {nSec start : UInt32}

theorem covered_succ {d : Nat} :
    Covered nSec (c + 1) d ↔
      Covered nSec c d ∨ (pageSizeLimit * c ≤ d ∧ d < pageSizeLimit * c + chunkSectors nSec) := by
  have hcnt : chunkSectors nSec ≤ 32 := Nat.min_le_right _ _
  unfold Covered pageSizeLimit
  omega

/-- With an exact count the chunks cover the transfer and nothing else. -/
theorem ExactCount.covered_iff (h : ExactCount nSec) (d : Nat) :
    Covered nSec (chunkCount nSec) d ↔ d < nSec.toNat := by
  unfold ExactCount pageSizeLimit at h
  unfold Covered chunkCount chunkSectors pageSizeLimit
  omega

/-- Otherwise they cover the sector behind it. -/
theorem covered_of_not_exact (h : ¬ ExactCount nSec) :
    Covered nSec (chunkCount nSec) nSec.toNat := by
  unfold ExactCount pageSizeLimit at h
  unfold Covered chunkCount chunkSectors pageSizeLimit
  omega

/-- An exact count does not send the cursor back. -/
theorem ExactCount.le (h : ExactCount nSec) (hn : nSec.toNat < 2 ^ 16) :
    nSec.toNat ≤ 65504 := by
  unfold ExactCount pageSizeLimit at h
  omega

/-- The loop with all its chunks, from the start. -/
theorem pbaLoop_all {σ : Type} {body : UInt16 → σ → Bool × σ} {s : σ}
    (hok : ∀ c, (body (UInt16.ofNat (pageSizeLimit * c)) (chunkState body s c)).1 = true)
    (hn : nSec.toNat ≤ 65504) :
    pbaLoop body nSec (chunkCount nSec + 1) 0 s = some (true, chunkState body s (chunkCount nSec)) := by
  have h : pbaLoop body nSec (chunkCount nSec + 1) 0 s
      = some (true, chunkState body s (0 + chunkCount nSec)) :=
    pbaLoop_chunks hok (chunkCount nSec) 0
      (by unfold chunkCount pageSizeLimit; omega)
      (fun j hj => by unfold chunkCount pageSizeLimit at *; omega)
      (by unfold chunkCount pageSizeLimit; omega)
  rw [Nat.zero_add] at h
  exact h

/-! ## Transfers

A write changes bytes of the card and a read bytes of the buffer. For both, a byte `x` that can change
belongs to sector `idx x` of the transfer, and `target x` is what is stored there. -/

section Transfer

variable {σ ι : Type} {body : UInt16 → σ → Bool × σ} {nSec : UInt32} {good : σ → Prop}
  {val : σ → ι → UInt8} {inside : ι → Prop} [DecidablePred inside] {idx : ι → Nat}
  {target : ι → UInt8} {s : σ}

/-- A chunk at the cursor `len` succeeds and stores the bytes of its sectors. -/
def Transfers (body : UInt16 → σ → Bool × σ) (nSec : UInt32) (good : σ → Prop) (val : σ → ι → UInt8)
    (inside : ι → Prop) [DecidablePred inside] (idx : ι → Nat) (target : ι → UInt8) : Prop :=
  ∀ len s, good s → (body len s).1 = true ∧ good (body len s).2 ∧
    ∀ x, val (body len s).2 x =
      if inside x ∧ len.toNat ≤ idx x ∧ idx x < len.toNat + chunkSectors nSec then target x
      else val s x

theorem Transfers.good_chunkState (h : Transfers body nSec good val inside idx target) (hs : good s)
    (c : Nat) : good (chunkState body s c) := by
  induction c with
  | zero => exact hs
  | succ c ih => exact (h _ _ ih).2.1

/-- After `c` chunks. -/
theorem Transfers.val_chunkState (h : Transfers body nSec good val inside idx target) (hs : good s)
    (hc : pageSizeLimit * c ≤ 2 ^ 16) (x : ι) :
    val (chunkState body s c) x
      = if inside x ∧ Covered nSec c (idx x) then target x else val s x := by
  induction c with
  | zero => exact (if_neg fun h => absurd h.2.1 (Nat.not_lt_zero _)).symm
  | succ c ih =>
    have hfit : pageSizeLimit * c < 2 ^ 16 := by unfold pageSizeLimit at *; omega
    rw [chunkState, (h _ _ (h.good_chunkState hs c)).2.2, ih hfit.le, toNat_cursor hfit]
    by_cases hnew : inside x ∧ pageSizeLimit * c ≤ idx x ∧ idx x < pageSizeLimit * c + chunkSectors nSec
    · rw [if_pos hnew, if_pos ⟨hnew.1, covered_succ.2 (.inr hnew.2)⟩]
    · rw [if_neg hnew]
      refine if_congr (and_congr_right fun hin => ?_) rfl rfl
      rw [covered_succ, or_iff_left fun hx => hnew ⟨hin, hx⟩]

theorem Transfers.loop (h : Transfers body nSec good val inside idx target) (hs : good s)
    (hn : nSec.toNat ≤ 65504) :
    ∃ s', pbaLoop body nSec (chunkCount nSec + 1) 0 s = some (true, s') ∧ good s' ∧
      ∀ x, val s' x
        = if inside x ∧ Covered nSec (chunkCount nSec) (idx x) then target x else val s x := by
  refine ⟨_, pbaLoop_all (fun c => (h _ _ (h.good_chunkState hs c)).1) hn, h.good_chunkState hs _,
    h.val_chunkState hs ?_⟩
  unfold chunkCount pageSizeLimit
  omega

/-- With an exact count the bytes of the `nSec` sectors are stored, and no others. -/
theorem Transfers.exact (h : Transfers body nSec good val inside idx target) (hs : good s)
    (hn : nSec.toNat < 2 ^ 16) (hcount : ExactCount nSec) :
    ∃ fuel s', pbaLoop body nSec fuel 0 s = some (true, s') ∧ good s' ∧
      ∀ x, val s' x = if inside x ∧ idx x < nSec.toNat then target x else val s x := by
  obtain ⟨s', hloop, hgood, hval⟩ := h.loop hs (hcount.le hn)
  refine ⟨_, s', hloop, hgood, fun x => ?_⟩
  rw [hval]
  simp only [hcount.covered_iff]

/-- A byte of the sector behind the last one keeps its value for an exact count only. -/
theorem Transfers.exactCount (h : Transfers body nSec good val inside idx target) (hs : good s)
    {s' : σ} (hloop : pbaLoop body nSec fuel 0 s = some (true, s')) (x : ι) (hin : inside x)
    (hidx : idx x = nSec.toNat) (hne : target x ≠ val s x) (hsame : val s' x = val s x) : ExactCount nSec := by
  by_contra hcount
  by_cases hlarge : nSec.toNat ≤ 65504
  · obtain ⟨s'', hloop', -, hval⟩ := h.loop hs hlarge
    obtain rfl : s'' = s' := congrArg Prod.snd (pbaLoop_unique hloop' hloop)
    rw [hval, hidx, if_pos ⟨hin, covered_of_not_exact hcount⟩] at hsame
    exact hne hsame
  · rw [pbaLoop_stuck good (fun len s hs => ⟨(h len s hs).1, (h len s hs).2.1⟩)
      (Nat.lt_of_not_le hlarge) fuel rfl hs] at hloop
    exact absurd hloop nofun

theorem map_returnCode {o : Option (Bool × σ)} :
    o.map returnCode = some (0, s) ↔ o = some (true, s) := by
  rcases o with _ | ⟨_ | _, t⟩ <;> simp [returnCode]

end Transfer

/-! ## Writes and reads -/

section Copies

variable (check : Bool) (part : Part) (start nSec : UInt32)

/-- Byte `b` of sector `m` of a partition. -/
theorem writeChunk_transfers (buf : Mem) :
    Transfers (writeChunk check part start nSec buf) nSec (fun s => s.card.fails = [])
      (fun s (x : Part × UInt32 × Fin 512) => s.card.sectors x.1 x.2.1 x.2.2) (fun x => x.1 = part)
      (fun x => (x.2.1 - start).toNat) (fun x => buf (528 * (x.2.1 - start).toNat + x.2.2)) := by
  intro len s hs
  unfold writeChunk blockWrite
  simp only [hs, List.headD_nil, Bool.false_eq_true, if_false, List.tail_nil]
  refine ⟨rfl, trivial, fun ⟨q, m, b⟩ => ?_⟩
  have hcnt : chunkSectors nSec ≤ 32 := Nat.min_le_right _ _
  have hlen := len.toNat_lt
  have hdist := toNat_sub_add m start len.toUInt32
  rw [UInt16.toNat_toUInt32] at hdist
  dsimp only
  by_cases hin : q = part ∧ len.toNat ≤ (m - start).toNat ∧
      (m - start).toNat < len.toNat + chunkSectors nSec
  · rw [if_pos hin.2.1] at hdist
    rw [if_pos hin, if_pos ⟨hin.1, by omega⟩, gatherRecords_apply (by omega) b.2, hdist,
      Nat.add_sub_cancel' hin.2.1]
  · rw [if_neg hin, if_neg]
    rintro ⟨hq, hlt⟩
    refine hin ⟨hq, ?_⟩
    split at hdist <;> omega

/-- Byte `b` of record `i`; the first 512 are those of the sector. -/
theorem readChunk_transfers {card : Card} (hcard : card.fails = []) :
    Transfers (readChunk check part start nSec) nSec (fun s => s.1.card = card)
      (fun s (x : Nat × Fin 528) => s.2 (528 * x.1 + x.2)) (fun x => x.2.1 < 512) Prod.fst
      (fun x => if h : x.2.1 < 512 then card.sectors part (start + UInt32.ofNat x.1) ⟨x.2, h⟩
        else 0) := by
  rintro len ⟨s, buf⟩ rfl
  change s.card.fails = [] at hcard
  unfold readChunk blockRead
  simp only [hcard, List.headD_nil, Bool.false_eq_true, if_false, List.tail_nil, Bool.true_eq_false,
    and_false]
  refine ⟨trivial, by rw [← hcard], fun ⟨i, b⟩ => ?_⟩
  rw [scatterRecords_apply i b.2]
  dsimp only
  by_cases hin : b.1 < 512 ∧ len.toNat ≤ i ∧ i < len.toNat + chunkSectors nSec
  · have hx : (512 * (i - len.toNat) + b.1) / 512 = i - len.toNat := by omega
    have hb : (512 * (i - len.toNat) + b.1) % 512 = b.1 := by omega
    have hcursor : start + len.toUInt32 + UInt32.ofNat (i - len.toNat) = start + UInt32.ofNat i := by
      have hlen : len.toUInt32 = UInt32.ofNat len.toNat := by simp
      rw [hlen, UInt32.add_assoc, ← UInt32.ofNat_add, Nat.add_sub_cancel' hin.2.1]
    rw [if_pos ⟨hin.2.1, hin.2.2, hin.1⟩, if_pos hin, dif_pos hin.1, if_pos (by omega)]
    simp only [hx, hb, hcursor]
  · rw [if_neg (fun h => hin ⟨h.2.2, h.1, h.2.1⟩), if_neg hin]

end Copies

/-- A card with zeros, for the counts that are not exact. -/
def blankState : State where
  card := ⟨fun _ _ _ => 0, []⟩
  info := ⟨.data, .boot, sdCardFwPartOffset, 0⟩
  data := Mem.zero

theorem blankState_fixed : FixedOffset blankState := ⟨rfl, rfl, rfl⟩

variable {check : Bool} {part : State → Part}

/-- A write by way of the loop is exact for the exact counts only. -/
theorem writesExactly_iff {f : Mem → Nat → State → Option (UInt32 × State)} (hn : nSec.toNat < 2 ^ 16)
    (hf : ∀ buf fuel s, FixedOffset s → f buf fuel s = writeLoop check (part s) start nSec buf fuel s) :
    WritesExactly f part start nSec.toNat ↔ ExactCount nSec := by
  constructor
  · intro h
    obtain ⟨fuel, s', hloop, hsectors⟩ := h (fun _ => 1) blankState blankState_fixed
    have hold := hsectors (part blankState) (start + nSec) 0
    rw [toNat_add_sub, if_neg (fun h => absurd h.2 (Nat.lt_irrefl _))] at hold
    rw [hf _ _ _ blankState_fixed, writeLoop, map_returnCode] at hloop
    exact (writeChunk_transfers check (part blankState) start nSec _).exactCount
      blankState_fixed.fails hloop (part blankState, start + nSec, 0) rfl (toNat_add_sub start nSec)
      (show (1 : UInt8) ≠ 0 by decide) hold
  · intro hcount buf s hs
    obtain ⟨fuel, s', hloop, -, hval⟩ :=
      (writeChunk_transfers check (part s) start nSec buf).exact hs.fails hn hcount
    exact ⟨fuel, s', (hf _ _ _ hs).trans (map_returnCode.2 hloop), fun q m b => hval (q, m, b)⟩

/-- A read by way of the loop is exact for the exact counts only. -/
theorem readsExactly_iff {f : Nat → State × Mem → Option (UInt32 × (State × Mem))} (hn : nSec.toNat < 2 ^ 16)
    (hf : ∀ buf fuel s, FixedOffset s →
      f fuel (s, buf) = readLoop check (part s) start nSec fuel (s, buf)) :
    ReadsExactly f part start nSec.toNat ↔ ExactCount nSec := by
  constructor
  · intro h
    obtain ⟨fuel, s', buf', hloop, -, hbuf⟩ := h (fun _ => 1) blankState blankState_fixed
    have hold := hbuf nSec.toNat 0
    rw [dif_neg (fun h => absurd h.1 (Nat.lt_irrefl _))] at hold
    rw [hf _ _ _ blankState_fixed, readLoop, map_returnCode] at hloop
    exact (readChunk_transfers check (part blankState) start nSec blankState_fixed.fails).exactCount
      rfl hloop (nSec.toNat, 0) (Nat.succ_pos 511) rfl (show (0 : UInt8) ≠ 1 by decide) hold
  · intro hcount buf s hs
    obtain ⟨fuel, ⟨s', buf'⟩, hloop, hcard, hval⟩ :=
      (readChunk_transfers check (part s) start nSec hs.fails).exact (s := (s, buf)) rfl hn hcount
    refine ⟨fuel, s', buf', (hf _ _ _ hs).trans (map_returnCode.2 hloop), by rw [← hcard],
      fun i b => (hval (i, b)).trans ?_⟩
    dsimp only
    by_cases hin : i < nSec.toNat ∧ b.1 < 512
    · rw [if_pos hin.symm, dif_pos hin.2, dif_pos hin]
    · rw [if_neg (fun h => hin h.symm), dif_neg hin]

/-! ## The four functions -/

variable {s : State}

section Functions

variable {pba nSec : UInt32}

theorem sdhciBootWritePBA_eq (hpba : pba + nSec < emmcBootPartSize * 5) (buf : Mem) (fuel : Nat)
    (s : State) :
    sdhciBootWritePBA pba nSec buf fuel s
      = writeLoop true .data (pba + sdCardBootPartOffset) nSec buf fuel s := by
  rw [sdhciBootWritePBA, if_neg (UInt32.not_le.2 hpba)]

theorem sdmmcBootWritePBA_eq (hpba : pba + nSec < emmcBootPartSize * 5) (buf : Mem) (fuel : Nat)
    (hs : FixedOffset s) :
    sdmmcBootWritePBA pba nSec buf fuel s
      = writeLoop false s.info.accessPart (pba + sdCardBootPartOffset) nSec buf fuel s := by
  rw [sdmmcBootWritePBA, hs.bootCapSize, if_neg (by decide), if_pos hs.fwPartOffset,
    if_neg (UInt32.not_le.2 hpba)]

theorem sdhciBootReadPBA_eq (hpba : pba + nSec < emmcBootPartSize * 5) (fuel : Nat) (s : State × Mem) :
    sdhciBootReadPBA pba nSec fuel s
      = readLoop true .data (pba + sdCardBootPartOffset) nSec fuel s := by
  rw [sdhciBootReadPBA, if_neg (UInt32.not_le.2 hpba)]

/-- The address that `SdmmcBootReadPBA` makes of `pba`. -/
def sdmmcReadAddress (pba nSec : UInt32) : UInt32 :=
  if emmcBootPartSize * 5 ≤ pba + nSec then pba &&& (emmcBootPartSize - 1) else pba

theorem sdmmcBootReadPBA_eq (fuel : Nat) (hs : FixedOffset s) (buf : Mem) :
    sdmmcBootReadPBA pba nSec fuel (s, buf)
      = readLoop false s.info.accessPart (sdmmcReadAddress pba nSec + sdCardBootPartOffset) nSec fuel
          (s, buf) := by
  rw [sdmmcBootReadPBA, hs.bootCapSize, if_neg (by decide), if_pos hs.fwPartOffset]
  rfl

end Functions

/-- **For every sector count below 65536 and every PBA: each write and each read that is not refused
    moves exactly `nSec` sectors, between the sectors from the address on and the first 512 bytes of
    the records, and touches nothing else, exactly if `nSec` is at most 32 or a multiple of 32.** -/
theorem pba_access_exact_iff (pba nSec : UInt32) (hn : nSec.toNat < 65536) :
    (pba + nSec < emmcBootPartSize * 5 →
      (WritesExactly (sdhciBootWritePBA pba nSec) (fun _ => .data)
        (pba + sdCardBootPartOffset) nSec.toNat ↔ nSec.toNat ≤ 32 ∨ 32 ∣ nSec.toNat) ∧
      (WritesExactly (sdmmcBootWritePBA pba nSec) (fun s => s.info.accessPart)
        (pba + sdCardBootPartOffset) nSec.toNat ↔ nSec.toNat ≤ 32 ∨ 32 ∣ nSec.toNat) ∧
      (ReadsExactly (sdhciBootReadPBA pba nSec) (fun _ => .data)
        (pba + sdCardBootPartOffset) nSec.toNat ↔ nSec.toNat ≤ 32 ∨ 32 ∣ nSec.toNat)) ∧
    (ReadsExactly (sdmmcBootReadPBA pba nSec) (fun s => s.info.accessPart)
      (sdmmcReadAddress pba nSec + sdCardBootPartOffset) nSec.toNat ↔
        nSec.toNat ≤ 32 ∨ 32 ∣ nSec.toNat) := by
  refine ⟨fun hpba => ⟨?_, ?_, ?_⟩, ?_⟩
  · exact writesExactly_iff hn (fun buf fuel s _ => sdhciBootWritePBA_eq hpba buf fuel s)
  · exact writesExactly_iff hn (fun buf fuel s hs => sdmmcBootWritePBA_eq hpba buf fuel hs)
  · exact readsExactly_iff hn (fun buf fuel s _ => sdhciBootReadPBA_eq hpba fuel (s, buf))
  · exact readsExactly_iff hn (fun buf fuel s hs => sdmmcBootReadPBA_eq fuel hs buf)

/-- 64 sectors, in two chunks. -/
theorem pba_access_exact_iff_64 :
    WritesExactly (sdhciBootWritePBA 0 64) (fun _ => .data) (0 + sdCardBootPartOffset) 64 ∧
      ReadsExactly (sdmmcBootReadPBA 0 64) (fun s => s.info.accessPart)
        (sdmmcReadAddress 0 64 + sdCardBootPartOffset) 64 :=
  ⟨((pba_access_exact_iff 0 64 (by decide)).1 (by decide)).1.2 (.inr (by decide)),
    (pba_access_exact_iff 0 64 (by decide)).2.2 (.inr (by decide))⟩

/-- With 33 sectors the second chunk has 32 of them: the sector behind the last one, 97, is written,
    and the record behind the last one is stored. -/
theorem pba_access_33_overruns :
    (sdhciBootWritePBA 0 33 (fun _ => 1) 3 blankState).map
        (fun r => (r.1, r.2.card.sectors .data 97 0)) = some (0, 1) ∧
      (sdmmcBootWritePBA 0 33 (fun _ => 1) 3 blankState).map
        (fun r => (r.1, r.2.card.sectors .data 97 0)) = some (0, 1) ∧
      (sdhciBootReadPBA 0 33 3 (blankState, fun _ => 1)).map
        (fun r => (r.1, r.2.2 (528 * 33))) = some (0, 0) ∧
      (sdmmcBootReadPBA 0 33 3 (blankState, fun _ => 1)).map
        (fun r => (r.1, r.2.2 (528 * 33))) = some (0, 0) := by
  decide +kernel

end MediaBoot
