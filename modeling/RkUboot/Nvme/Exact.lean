import RkUboot.Nvme.Basic

set_option autoImplicit false

/-! # Which NVMe transfers are exact

The commands of a request start `req_size` sectors apart, at a 32-bit sector number. A read through the
bounce buffer copies back only as many sectors as the last command had, so it is exact for a single
command; a write through the bounce buffer copies everything beforehand. -/

namespace Nvme

/-- A request to `nvme_read` or `nvme_write`: 32-bit arguments, the sectors inside of the namespace,
    and a buffer in the memory. -/
structure Request (dev : Dev) where
  lba : Nat
  buf : Nat
  nsec : Nat
  lba_lt : lba < 2 ^ 32
  nsec_lt : nsec < 2 ^ 32
  nsec_pos : 0 < nsec
  end_lt : lba + nsec < dev.nsize
  buf_le : buf + 512 * nsec ≤ dev.ddrEnd

/-! ## The loop -/

/-- The sectors of the last command. -/
def lastCount (req nsec : Nat) : Nat := nsec - req * ((nsec - 1) / req)

variable {buf dst fuel lba n nsec req src t : Nat}

theorem lastCount_of_dvd (hdvd : req ∣ t) (ht : t < nsec)
    (hlast : nsec - t ≤ req) : nsec - t = lastCount req nsec := by
  obtain ⟨k, rfl⟩ := hdvd
  have hdiv : (nsec - 1) / req = k := by
    refine Nat.div_eq_of_lt_le ?_ ?_
    · rw [Nat.mul_comm]
      omega
    · rw [Nat.mul_comm, Nat.mul_succ]
      omega
  rw [lastCount, hdiv]

theorem lastCount_bounds (hreq : 0 < req) (hn : 0 < nsec) :
    0 < lastCount req nsec ∧ lastCount req nsec ≤ req := by
  have hsplit := Nat.div_add_mod (nsec - 1) req
  have hmod := Nat.mod_lt (nsec - 1) hreq
  unfold lastCount
  omega

theorem lastCount_of_le (hn : 0 < nsec) (hle : nsec ≤ req) :
    lastCount req nsec = nsec := by
  rw [lastCount, Nat.div_eq_of_lt (by omega), Nat.mul_zero, Nat.sub_zero]

/-- What each command of a request does, where `P t` is what holds behind the first `t` sectors. -/
def Moves (dev : Dev) (cmd : Nat → Nat → Nat → State → Option (Int × State))
    (req buf lba nsec : Nat) (P : Nat → State → Prop) : Prop :=
  ∀ t n s, req ∣ t → n ≤ req → t < nsec → t + n ≤ nsec → P t s → ∃ s',
    cmd (buf + 512 * t) ((lba + t) % 2 ^ 32) n s
      = (if buf + 512 * (t + n) ≤ dev.ddrEnd then some (0, s') else none) ∧ P (t + n) s'

variable {s s' s₀ : State}

section Loop

variable {dev : Dev} {cmd : Nat → Nat → Nat → State → Option (Int × State)}
variable {req buf lba nsec : Nat} {P : Nat → State → Prop}

/-- The start of the next command. -/
theorem next_start (buf lba t req : Nat) :
    buf + 512 * t + 512 * req = buf + 512 * (t + req)
      ∧ ((lba + t) % 2 ^ 32 + req) % 2 ^ 32 = (lba + (t + req)) % 2 ^ 32 := by
  refine ⟨by omega, ?_⟩
  rw [Nat.mod_add_mod, Nat.add_assoc]

/-- The loop moves all sectors. It has no result if there are not enough rounds, or if the buffer does
    not lie in the memory. -/
theorem requestLoop_cases (hm : Moves dev cmd req buf lba nsec P) (hreq : 0 < req) (fuel : Nat)
    (hdvd : req ∣ t) (ht : t < nsec) (hP : P t s) :
    let run := requestLoop cmd req fuel (buf + 512 * t) ((lba + t) % 2 ^ 32) (nsec - t) s
    (buf + 512 * nsec ≤ dev.ddrEnd ∧ ∃ s', run = some (.done 0 (lastCount req nsec) s') ∧ P nsec s') ∨
      run = none ∧ (fuel < nsec - t ∨ dev.ddrEnd < buf + 512 * nsec) := by
  induction fuel generalizing t s with
  | zero => exact .inr ⟨rfl, .inl (by omega)⟩
  | succ fuel ih =>
    unfold requestLoop
    by_cases hmore : req < nsec - t
    · rw [if_pos hmore]
      obtain ⟨s', hcmd, hP'⟩ := hm t req s hdvd le_rfl ht (by omega) hP
      by_cases hmem : buf + 512 * (t + req) ≤ dev.ddrEnd
      · rw [if_pos hmem] at hcmd
        simp only [hcmd, ne_eq, not_true_eq_false, if_false]
        rw [(next_start buf lba t req).1, (next_start buf lba t req).2, Nat.sub_sub]
        refine (ih (Nat.dvd_add hdvd (Nat.dvd_refl _)) (by omega) hP').imp id fun hnone => ?_
        exact ⟨hnone.1, by omega⟩
      · rw [hcmd, if_neg hmem]
        exact .inr ⟨rfl, .inr (by omega)⟩
    · rw [if_neg hmore]
      obtain ⟨s', hcmd, hP'⟩ := hm t (nsec - t) s hdvd (by omega) ht (by omega) hP
      rw [show t + (nsec - t) = nsec by omega] at hcmd hP'
      by_cases hmem : buf + 512 * nsec ≤ dev.ddrEnd
      · rw [hcmd, if_pos hmem, ← lastCount_of_dvd hdvd ht (by omega)]
        exact .inl ⟨hmem, s', rfl, hP'⟩
      · rw [hcmd, if_neg hmem]
        exact .inr ⟨rfl, .inr (by omega)⟩

/-- A whole request. -/
theorem Request.loop (r : Request dev) (hm : Moves dev cmd dev.reqSize buf r.lba r.nsec P)
    (fuel : Nat) (hP : P 0 s) :
    (buf + 512 * r.nsec ≤ dev.ddrEnd ∧ ∃ s', requestLoop cmd dev.reqSize fuel buf r.lba r.nsec s
        = some (.done 0 (lastCount dev.reqSize r.nsec) s') ∧ P r.nsec s') ∨
      requestLoop cmd dev.reqSize fuel buf r.lba r.nsec s = none ∧
        (fuel < r.nsec ∨ dev.ddrEnd < buf + 512 * r.nsec) := by
  have h := requestLoop_cases hm dev.reqSize_pos fuel (Nat.dvd_zero _) r.nsec_pos hP
  rwa [Nat.add_zero r.lba, Nat.mod_eq_of_lt r.lba_lt] at h

end Loop

/-! ## Sectors -/

/-- The sector that the loop moves for sector `t` of the buffer: the start of a command is a 32-bit
    number, and a command goes on from its start. -/
def sectorAt (lba req t : Nat) : Nat := (lba + req * (t / req)) % 2 ^ 32 + t % req

theorem sectorAt_add {i : Nat} (hdvd : req ∣ t) (hi : i < req) :
    sectorAt lba req (t + i) = (lba + t) % 2 ^ 32 + i := by
  obtain ⟨k, rfl⟩ := hdvd
  rw [sectorAt, Nat.mul_add_div (by omega), Nat.mul_add_mod, Nat.div_eq_of_lt hi,
    Nat.mod_eq_of_lt hi, Nat.add_zero]

theorem sectorAt_of_lt (h : lba + req * (t / req) < 2 ^ 32) :
    sectorAt lba req t = lba + t := by
  have hsplit := Nat.div_add_mod t req
  rw [sectorAt, Nat.mod_eq_of_lt h]
  omega

/-- No command reaches a sector where a command should have started, but did not because its number
    does not fit. -/
theorem sectorAt_ne {k : Nat} (hlba : lba < 2 ^ 32) (ht : t < 2 ^ 32)
    (hk : 2 ^ 32 ≤ lba + req * k) (hreq : 0 < req) : sectorAt lba req t ≠ lba + req * k := by
  intro heq
  have hsplit := Nat.div_add_mod t req
  by_cases hwrap : lba + req * (t / req) < 2 ^ 32
  · rw [sectorAt_of_lt hwrap] at heq
    obtain rfl : t = req * k := by omega
    rw [Nat.mul_div_cancel_left k hreq] at hwrap
    omega
  · have hmod : (lba + req * (t / req)) % 2 ^ 32 = lba + req * (t / req) - 2 ^ 32 := by omega
    rw [sectorAt, hmod] at heq
    omega

/-- The start of the last command fits in 32 bits. -/
def StartsFit (lba req nsec : Nat) : Prop := lba + req * ((nsec - 1) / req) < 2 ^ 32
  deriving Decidable

theorem StartsFit.start_lt (h : StartsFit lba req nsec) (ht : t < nsec) :
    lba + req * (t / req) < 2 ^ 32 := by
  have hle : t / req ≤ (nsec - 1) / req := Nat.div_le_div_right (by omega)
  have hmul := Nat.mul_le_mul_left req hle
  unfold StartsFit at h
  omega

/-! ## Reads -/

/-- Behind `t` sectors of a read into `buf`. -/
structure ReadSoFar (s₀ : State) (req buf lba t : Nat) (s : State) : Prop where
  script : s.script = []
  disk : s.disk = s₀.disk
  read : ∀ i r, i < t → r < 512 →
    s.ram (buf + 512 * i + r) = s₀.disk (512 * sectorAt lba req i + r)
  frame : ∀ x, x < buf ∨ buf + 512 * t ≤ x → s.ram x = s₀.ram x

variable {dev : Dev}

/-- The range check of a command holds in a request. -/
theorem range_of_request (hend : lba + nsec < dev.nsize)
    (hle : t + n ≤ nsec) : ((lba + t) % 2 ^ 32 + n) % 2 ^ 32 < dev.nsize := by
  omega

theorem nvmeReadCmd_moves (hreq : req ≤ maxReqSector) (hend : lba + nsec < dev.nsize) :
    Moves dev (nvmeReadCmd dev) req buf lba nsec (ReadSoFar s₀ req buf lba) := by
  intro t n s hdvd hn ht hle hP
  rw [nvmeReadCmd_eq hP.script (hn.trans hreq) (range_of_request hend hle), Nat.add_assoc,
    ← Nat.mul_add]
  refine ⟨_, rfl, hP.script, hP.disk, ?_, ?_⟩
  · intro i r hi hr
    by_cases hold : i < t
    · rw [← hP.read i r hold hr]
      exact Mem.copy_apply_out (by omega)
    obtain ⟨j, rfl⟩ := Nat.exists_eq_add_of_le (Nat.le_of_not_lt hold)
    rw [sectorAt_add hdvd (by omega), ← hP.disk]
    refine (Mem.copy_apply_in (by omega) (by omega)).trans (congrArg s.disk ?_)
    omega
  · intro x hx
    rw [← hP.frame x (by omega)]
    exact Mem.copy_apply_out (by omega)

theorem readSoFar_start (hs : s₀.script = []) (req buf lba : Nat) :
    ReadSoFar s₀ req buf lba 0 s₀ :=
  ⟨hs, rfl, fun _ _ hi => absurd hi (Nat.not_lt_zero _), fun _ _ => rfl⟩

/-! ## Writes -/

/-- Behind `t` sectors of a write from `buf`. -/
structure WrittenSoFar (s₀ : State) (req buf lba nsec t : Nat) (s : State) : Prop where
  script : s.script = []
  ram : s.ram = s₀.ram
  written : StartsFit lba req nsec → s.disk = s₀.disk.copy (512 * lba) s₀.ram buf (512 * t)
  frame : ∀ d, (∀ i < t, sectorAt lba req i ≠ d) → s.disk (512 * d) = s₀.disk (512 * d)

theorem nvmeWriteCmd_moves (hreq : req ≤ maxReqSector) (hend : lba + nsec < dev.nsize) :
    Moves dev (nvmeWriteCmd dev) req buf lba nsec (WrittenSoFar s₀ req buf lba nsec) := by
  intro t n s hdvd hn ht hle hP
  rw [nvmeWriteCmd_eq hP.script (hn.trans hreq) (range_of_request hend hle), Nat.add_assoc,
    ← Nat.mul_add]
  refine ⟨_, rfl, hP.script, hP.ram, ?_, ?_⟩
  · intro hfit
    have hstart := hfit.start_lt ht
    rw [Nat.mul_div_cancel' hdvd] at hstart
    rw [hP.written hfit, hP.ram, Nat.mod_eq_of_lt hstart, Nat.mul_add, Nat.mul_add, Mem.copy_add]
  · intro d hd
    rw [← hP.frame d (fun i hi => hd i (by omega))]
    refine Mem.copy_apply_out ?_
    by_cases hlo : d < (lba + t) % 2 ^ 32
    · omega
    obtain ⟨j, hj⟩ := Nat.exists_eq_add_of_le (Nat.le_of_not_lt hlo)
    -- inside of the command's sectors `d` would be one of them
    have hout : ¬ j < n := by
      intro hjn
      refine hd (t + j) (by omega) ?_
      rw [sectorAt_add hdvd (by omega), hj]
    omega

theorem writtenSoFar_start (hs : s₀.script = []) (req buf lba nsec : Nat) :
    WrittenSoFar s₀ req buf lba nsec 0 s₀ := by
  refine ⟨hs, rfl, fun _ => ?_, fun _ _ => rfl⟩
  funext x
  exact (Mem.copy_apply_out (by omega)).symm

/-! ## The bounce buffer -/

section Bounce

variable {dev : Dev}

theorem Dev.tbuf_add (dev : Dev) : dev.tbuf + bounceSize = dev.ddrEnd :=
  Nat.sub_add_cancel dev.bounceSize_le

theorem Dev.tbuf_aligned (dev : Dev) : dev.tbuf % 512 = 0 := by
  have hend := Nat.mod_eq_zero_of_dvd dev.ddrEnd_aligned
  have hsum := dev.tbuf_add
  unfold bounceSize at hsum
  omega

theorem mul_mod_of_le (h : 512 * n ≤ bounceSize) : n * 512 % 2 ^ 32 = 512 * n := by
  unfold bounceSize at h
  omega

theorem Dev.tbuf_room (dev : Dev) (hn : 512 * n ≤ bounceSize) : dev.tbuf + 512 * n ≤ dev.ddrEnd := by
  have hsum := dev.tbuf_add
  omega

/-- The copy back of the last command's sectors. -/
theorem copyBack_eq_some_iff (hn : 512 * n ≤ bounceSize) : copyBack dev dst n s = some s' ↔
    (Disjoint dst dev.tbuf (512 * n) ∧ dst + 512 * n ≤ dev.ddrEnd) ∧
      { s with ram := (s.ram.copy dst s.ram dev.tbuf (512 * n)).fill dev.tbuf 0 (512 * n) } = s' := by
  have htbuf := dev.tbuf_room hn
  unfold copyBack memcpy
  rw [mul_mod_of_le hn]
  by_cases hok : Disjoint dst dev.tbuf (512 * n) ∧ dst + 512 * n ≤ dev.ddrEnd
  · simp [hok, memset, htbuf]
  · rw [if_neg (fun h => hok ⟨h.1, h.2.1⟩)]
    exact iff_of_false nofun (fun h => hok h.1)

/-- The copy out has succeeded: the ranges are disjoint. -/
theorem copyOut_eq (h : copyOut dev src n s = some s') :
    Disjoint dev.tbuf src (n * 512 % 2 ^ 32)
      ∧ { s with ram := s.ram.copy dev.tbuf s.ram src (n * 512 % 2 ^ 32) } = s' := by
  unfold copyOut memcpy at h
  by_cases hok : Disjoint dev.tbuf src (n * 512 % 2 ^ 32)
      ∧ dev.tbuf + n * 512 % 2 ^ 32 ≤ dev.ddrEnd ∧ src + n * 512 % 2 ^ 32 ≤ dev.ddrEnd
  · rw [if_pos hok] at h
    exact ⟨hok.1, Option.some.inj h⟩
  · rw [if_neg hok] at h
    cases h

theorem copyOut_some (s : State) (hn : 512 * n ≤ bounceSize)
    (hsrc : src + 512 * n ≤ dev.ddrEnd) (hdis : Disjoint src dev.tbuf (512 * n)) :
    ∃ s', copyOut dev src n s = some s' := by
  unfold copyOut memcpy
  rw [mul_mod_of_le hn, if_pos ⟨hdis.symm, dev.tbuf_room hn, hsrc⟩]
  exact ⟨_, rfl⟩

/-- The end of a write does not change the namespace. -/
theorem finishWrite_disk {err err' : Int}
    (h : finishWrite dev src err n s = some (err', s')) : s'.disk = s.disk := by
  have hpair : ∀ s₁ : State,
      some (if err ≠ 0 then (err, s₁) else nvmeFlush s₁) = some (err', s') → s'.disk = s₁.disk := by
    intro s₁ h₁
    have h₂ := congrArg (fun p => p.2.disk) (Option.some.inj h₁)
    rw [← h₂]
    split <;> rfl
  unfold finishWrite memset at h
  split at h
  · split at h
    · rw [Option.map_some, Option.map_some] at h
      rw [hpair _ h]
    · cases h
  · exact hpair _ h

theorem nvmeFlush_eq (hs : s.script = []) : nvmeFlush s = (0, s) := by
  obtain ⟨ram, disk, script⟩ := s
  obtain rfl : script = [] := hs
  rfl

theorem finishWrite_some (hs : s.script = [])
    (hn : 512 * n ≤ bounceSize) : ∃ s', finishWrite dev src 0 n s = some (0, s') := by
  unfold finishWrite memset
  rw [mul_mod_of_le hn, if_pos (dev.tbuf_room hn)]
  simp only [ne_eq, not_true_eq_false, if_false, Option.map_some]
  split
  · rw [Option.map_some, nvmeFlush_eq]
    · exact ⟨_, rfl⟩
    · exact hs
  · rw [Option.map_some, nvmeFlush_eq hs]
    exact ⟨_, rfl⟩

end Bounce

/-! ## Exact transfers -/

namespace Request

variable {dev : Dev} (r : Request dev)

/-- The read ends, without an error, with the sectors in the buffer, when every command succeeds. -/
def ReadsSectors : Prop :=
  ∀ s : State, s.script = [] → ∃ fuel s', nvmeRead dev r.lba r.buf r.nsec fuel s = some (0, s')
    ∧ ∀ x < 512 * r.nsec, s'.ram (r.buf + x) = s.disk (512 * r.lba + x)

/-- The write ends, without an error, with the buffer in the sectors, when every command succeeds. -/
def WritesSectors : Prop :=
  ∀ s : State, s.script = [] → ∃ fuel s', nvmeWrite dev r.lba r.buf r.nsec fuel s = some (0, s')
    ∧ ∀ x < 512 * r.nsec, s'.disk (512 * r.lba + x) = s.ram (r.buf + x)

/-- The start of the last command is in the request. -/
theorem lastStart_lt : dev.reqSize * ((r.nsec - 1) / dev.reqSize) < r.nsec := by
  have hle := Nat.mul_div_le (r.nsec - 1) dev.reqSize
  have hpos := r.nsec_pos
  omega

theorem lastCount_le_bounce : 512 * lastCount dev.reqSize r.nsec ≤ bounceSize := by
  have hle := (lastCount_bounds dev.reqSize_pos r.nsec_pos).2
  have hreq := dev.reqSize_le
  have hmax : maxReqSector = 4096 := rfl
  unfold bounceSize
  omega

/-- A single command starts at `lba` itself. -/
theorem startsFit_of_le (hle : r.nsec ≤ dev.reqSize) : StartsFit r.lba dev.reqSize r.nsec := by
  have hpos := r.nsec_pos
  rw [StartsFit, Nat.div_eq_of_lt (by omega), Nat.mul_zero, Nat.add_zero]
  exact r.lba_lt

end Request

/-- What was read, when every start fits. -/
theorem ReadSoFar.exact
    (h : ReadSoFar s₀ req buf lba nsec s) (hfit : StartsFit lba req nsec) {x : Nat}
    (hx : x < 512 * nsec) : s.ram (buf + x) = s₀.disk (512 * lba + x) := by
  have hread := h.read (x / 512) (x % 512) (by omega) (Nat.mod_lt _ (by decide))
  rw [sectorAt_of_lt (hfit.start_lt (by omega))] at hread
  have hbuf : buf + 512 * (x / 512) + x % 512 = buf + x := by omega
  have hsector : 512 * (lba + x / 512) + x % 512 = 512 * lba + x := by omega
  rw [hbuf, hsector] at hread
  exact hread

/-- Empty memory, and a namespace with a single byte set. -/
def flagged (d : Nat) : State := ⟨fun _ => 0, fun x => if x = d then 1 else 0, []⟩

section Read

variable {dev : Dev} (r : Request dev) {s : State}

/-- A read: all of it is in the buffer of the commands, and from the bounce buffer the last command's
    count of sectors is copied back. -/
theorem nvmeRead_cases (hs : s.script = []) (fuel : Nat) :
    (∃ s₁, ReadSoFar s dev.reqSize (if r.buf % 512 ≠ 0 then dev.tbuf else r.buf) r.lba r.nsec s₁ ∧
      nvmeRead dev r.lba r.buf r.nsec fuel s = if r.buf % 512 ≠ 0 then
          (copyBack dev r.buf (lastCount dev.reqSize r.nsec) s₁).map (fun s => (0, s))
        else some (0, s₁)) ∨
    nvmeRead dev r.lba r.buf r.nsec fuel s = none ∧ (fuel < r.nsec ∨
      dev.ddrEnd < (if r.buf % 512 ≠ 0 then dev.tbuf else r.buf) + 512 * r.nsec) := by
  unfold nvmeRead
  simp only
  rcases r.loop (nvmeReadCmd_moves dev.reqSize_le r.end_lt) fuel (readSoFar_start hs ..) with
    ⟨-, s₁, hloop, hP⟩ | ⟨hloop, hshort⟩
  · rw [hloop]
    exact .inl ⟨s₁, hP, rfl⟩
  · rw [hloop]
    exact .inr ⟨rfl, hshort⟩

/-- What a read through the bounce buffer that ends has done. -/
theorem copyBack_of_read (hal : r.buf % 512 ≠ 0) (hs : s.script = [])
    (h : nvmeRead dev r.lba r.buf r.nsec fuel s = some (0, s')) :
    ∃ s₁, ReadSoFar s dev.reqSize dev.tbuf r.lba r.nsec s₁ ∧
      copyBack dev r.buf (lastCount dev.reqSize r.nsec) s₁ = some s' := by
  rcases nvmeRead_cases r hs fuel with ⟨s₁, hP, hrun⟩ | ⟨hnone, -⟩
  · rw [if_pos hal] at hP
    rw [hrun, if_pos hal, Option.map_eq_some_iff] at h
    obtain ⟨s₂, hback, heq⟩ := h
    cases heq
    exact ⟨s₁, hP, hback⟩
  · rw [hnone] at h
    cases h

/-- An aligned read that is exact does not wrap: the sector where the last command should start. -/
theorem startsFit_of_read (hal : r.buf % 512 = 0) (h : r.ReadsSectors) :
    StartsFit r.lba dev.reqSize r.nsec := by
  refine Nat.lt_of_not_le fun hwrap => ?_
  have hlt := r.lastStart_lt
  generalize hk : (r.nsec - 1) / dev.reqSize = k at hwrap hlt
  obtain ⟨fuel, s', hrun, hread⟩ := h (flagged (512 * (r.lba + dev.reqSize * k))) rfl
  have hP : ReadSoFar (flagged (512 * (r.lba + dev.reqSize * k))) dev.reqSize r.buf r.lba r.nsec s' := by
    rcases nvmeRead_cases (s := flagged _) r rfl fuel with ⟨s₁, hP, heq⟩ | ⟨hnone, -⟩
    · rw [if_neg (not_not.2 hal)] at hP heq
      rw [hrun] at heq
      cases heq
      exact hP
    · rw [hrun] at hnone
      cases hnone
  have hgot := hP.read (dev.reqSize * k) 0 hlt (by decide)
  have hwant := hread (512 * (dev.reqSize * k)) (by omega)
  have hne := sectorAt_ne r.lba_lt (hlt.trans r.nsec_lt) hwrap dev.reqSize_pos
  rw [Nat.add_zero, hwant] at hgot
  simp only [flagged, Nat.mul_add, Nat.add_zero, if_true] at hgot
  rw [if_neg (by omega)] at hgot
  cases hgot

/-- A read through the bounce buffer that is exact has a single command: otherwise the sector behind
    the ones that are copied back is missing. -/
theorem single_of_bounced (hal : r.buf % 512 ≠ 0) (h : r.ReadsSectors) : r.nsec ≤ dev.reqSize := by
  refine Nat.le_of_not_lt fun hmore => ?_
  obtain ⟨hpos, hle⟩ := lastCount_bounds dev.reqSize_pos r.nsec_pos
  have hroom := r.lastCount_le_bounce
  generalize hm : lastCount dev.reqSize r.nsec = m at hpos hle hroom
  obtain ⟨fuel, s', hrun, hread⟩ := h (flagged (512 * (r.lba + m))) rfl
  obtain ⟨s₁, hP, hback⟩ := copyBack_of_read r hal rfl hrun
  rw [hm] at hback
  obtain ⟨-, rfl⟩ := (copyBack_eq_some_iff hroom).1 hback
  have hwant := hread (512 * m) (by omega)
  have halign := dev.tbuf_aligned
  -- the bounce buffer holds the byte at an aligned address, and the buffer is not aligned
  have hzero : s₁.ram (r.buf + 512 * m) = 0 := by
    by_cases hin : dev.tbuf ≤ r.buf + 512 * m ∧ r.buf + 512 * m < dev.tbuf + 512 * r.nsec
    · have hgot := hP.read ((r.buf + 512 * m - dev.tbuf) / 512) ((r.buf + 512 * m - dev.tbuf) % 512)
        (by omega) (Nat.mod_lt _ (by decide))
      have haddr : dev.tbuf + 512 * ((r.buf + 512 * m - dev.tbuf) / 512)
          + (r.buf + 512 * m - dev.tbuf) % 512 = r.buf + 512 * m := by omega
      rw [haddr] at hgot
      rw [hgot]
      simp only [flagged]
      rw [if_neg (by omega)]
    · exact hP.frame _ (by omega)
  rw [flagged] at hwant
  simp only [Nat.mul_add, if_true] at hwant
  by_cases hcleared : dev.tbuf ≤ r.buf + 512 * m ∧ r.buf + 512 * m < dev.tbuf + 512 * m
  · rw [Mem.fill_apply_in hcleared.1 hcleared.2] at hwant
    cases hwant
  · rw [Mem.fill_apply_out (by omega), Mem.copy_apply_out (by omega), hzero] at hwant
    cases hwant

/-- Which reads are exact. -/
theorem readsSectors_iff : r.ReadsSectors ↔ StartsFit r.lba dev.reqSize r.nsec
    ∧ (512 ∣ r.buf ∨ r.nsec ≤ dev.reqSize ∧ Disjoint r.buf dev.tbuf (512 * r.nsec)) := by
  constructor
  · intro h
    by_cases hal : r.buf % 512 = 0
    · exact ⟨startsFit_of_read r hal h, .inl (Nat.dvd_of_mod_eq_zero hal)⟩
    have hle := single_of_bounced r hal h
    obtain ⟨fuel, s', hrun, -⟩ := h (flagged 0) rfl
    obtain ⟨s₁, -, hback⟩ := copyBack_of_read r hal rfl hrun
    have hdis := ((copyBack_eq_some_iff r.lastCount_le_bounce).1 hback).1.1
    rw [lastCount_of_le r.nsec_pos hle] at hdis
    exact ⟨r.startsFit_of_le hle, .inr ⟨hle, hdis⟩⟩
  · rintro ⟨hfit, hbuf⟩ s hs
    have hcases := nvmeRead_cases r hs r.nsec
    have hmem := r.buf_le
    by_cases hal : r.buf % 512 = 0
    · simp only [if_neg (not_not.2 hal)] at hcases
      obtain ⟨s', hP, hrun⟩ := hcases.resolve_right (by omega)
      exact ⟨r.nsec, s', hrun, fun x hx => hP.exact hfit hx⟩
    obtain ⟨hle, hdis⟩ := hbuf.resolve_left (fun hd => hal (Nat.mod_eq_zero_of_dvd hd))
    have hroom := r.lastCount_le_bounce
    rw [lastCount_of_le r.nsec_pos hle] at hroom
    have htbuf := dev.tbuf_room hroom
    simp only [if_pos hal, lastCount_of_le r.nsec_pos hle] at hcases
    obtain ⟨s₁, hP, hrun⟩ := hcases.resolve_right (by omega)
    rw [(copyBack_eq_some_iff hroom).2 ⟨⟨hdis, r.buf_le⟩, rfl⟩] at hrun
    refine ⟨r.nsec, _, hrun, fun x hx => ?_⟩
    unfold Disjoint at hdis
    rw [← hP.exact hfit hx]
    dsimp only
    rw [Mem.fill_apply_out (by omega), Mem.copy_apply_in (by omega) (by omega),
      Nat.add_sub_cancel_left]

end Read

section Write

variable {dev : Dev} (r : Request dev) {s : State}

theorem nvmeWrite_aligned (hal : r.buf % 512 = 0) (hs : s.script = []) (fuel : Nat) :
    (∃ s₁, WrittenSoFar s dev.reqSize r.buf r.lba r.nsec r.nsec s₁ ∧
      nvmeWrite dev r.lba r.buf r.nsec fuel s
        = finishWrite dev r.buf 0 (lastCount dev.reqSize r.nsec) s₁) ∨
    nvmeWrite dev r.lba r.buf r.nsec fuel s = none ∧ fuel < r.nsec := by
  unfold nvmeWrite
  simp only [hal, ne_eq, not_true_eq_false, if_false]
  rcases r.loop (nvmeWriteCmd_moves dev.reqSize_le r.end_lt) fuel (writtenSoFar_start hs ..) with
    ⟨-, s₁, hloop, hP⟩ | ⟨hloop, hshort⟩
  · rw [hloop]
    exact .inl ⟨s₁, hP, rfl⟩
  · have hmem := r.buf_le
    rw [hloop]
    exact .inr ⟨rfl, by omega⟩

/-- A write through the bounce buffer has room in it, and takes the bytes from there. -/
theorem nvmeWrite_bounced (hal : r.buf % 512 ≠ 0) (hs : s.script = []) (fuel : Nat) :
    ((512 * r.nsec ≤ bounceSize ∧ Disjoint r.buf dev.tbuf (512 * r.nsec)) ∧
      ∃ s₁, WrittenSoFar { s with ram := s.ram.copy dev.tbuf s.ram r.buf (512 * r.nsec) }
          dev.reqSize dev.tbuf r.lba r.nsec r.nsec s₁ ∧
        nvmeWrite dev r.lba r.buf r.nsec fuel s
          = finishWrite dev r.buf 0 (lastCount dev.reqSize r.nsec) s₁) ∨
    nvmeWrite dev r.lba r.buf r.nsec fuel s = none ∧ (fuel < r.nsec ∨
      ¬ (512 * r.nsec ≤ bounceSize ∧ Disjoint r.buf dev.tbuf (512 * r.nsec))) := by
  have htbuf := dev.tbuf_add
  unfold nvmeWrite
  simp only [if_pos hal]
  cases hout : copyOut dev r.buf r.nsec s with
  | none =>
    refine .inr ⟨rfl, .inr fun hroom => ?_⟩
    obtain ⟨s₀, hsome⟩ := copyOut_some s hroom.1 r.buf_le hroom.2
    rw [hout] at hsome
    cases hsome
  | some s₀ =>
    obtain ⟨hdis, hs₀⟩ := copyOut_eq hout
    have hscript : s₀.script = [] := by rw [← hs₀, hs]
    rcases r.loop (nvmeWriteCmd_moves dev.reqSize_le r.end_lt) fuel
      (writtenSoFar_start hscript _ dev.tbuf _ _) with ⟨hmem, s₁, hloop, hP⟩ | ⟨hloop, hshort⟩
    · have hroom : 512 * r.nsec ≤ bounceSize := by omega
      rw [mul_mod_of_le hroom] at hdis hs₀
      simp only [hloop, hs₀]
      exact .inl ⟨⟨hroom, hdis.symm⟩, s₁, hP, rfl⟩
    · simp only [hloop]
      exact .inr ⟨trivial, hshort.imp id fun hend hroom => absurd hroom.1 (by omega)⟩

/-- A write that ends: the commands have stored what is in the buffer, and nothing comes after that. -/
theorem nvmeWrite_disk (hs : s.script = [])
    (h : nvmeWrite dev r.lba r.buf r.nsec fuel s = some (0, s')) :
    ∃ ram buf s₁, WrittenSoFar { s with ram := ram } dev.reqSize buf r.lba r.nsec r.nsec s₁ ∧
      s'.disk = s₁.disk ∧ ∀ x < 512 * r.nsec, ram (buf + x) = s.ram (r.buf + x) := by
  by_cases hal : r.buf % 512 = 0
  · rcases nvmeWrite_aligned r hal hs fuel with ⟨s₁, hP, heq⟩ | ⟨hnone, -⟩
    · exact ⟨s.ram, r.buf, s₁, hP, finishWrite_disk (heq ▸ h), fun _ _ => rfl⟩
    · rw [hnone] at h
      cases h
  · rcases nvmeWrite_bounced r hal hs fuel with ⟨-, s₁, hP, heq⟩ | ⟨hnone, -⟩
    · refine ⟨_, dev.tbuf, s₁, hP, finishWrite_disk (heq ▸ h), fun x hx => ?_⟩
      rw [Mem.copy_apply_in (by omega) (by omega), Nat.add_sub_cancel_left]
    · rw [hnone] at h
      cases h

/-- A write that is exact does not wrap: nothing is stored where the last command should start. -/
theorem startsFit_of_write (h : r.WritesSectors) : StartsFit r.lba dev.reqSize r.nsec := by
  refine Nat.lt_of_not_le fun hwrap => ?_
  have hlt := r.lastStart_lt
  generalize hk : (r.nsec - 1) / dev.reqSize = k at hwrap hlt
  obtain ⟨fuel, s', hrun, hwritten⟩ := h ⟨fun _ => 0, fun _ => 1, []⟩ rfl
  have hmissed : ∀ i < r.nsec, sectorAt r.lba dev.reqSize i ≠ r.lba + dev.reqSize * k :=
    fun i hi => sectorAt_ne r.lba_lt (hi.trans r.nsec_lt) hwrap dev.reqSize_pos
  obtain ⟨ram, buf, s₁, hP, hdisk, -⟩ := nvmeWrite_disk r rfl hrun
  have hkept : s'.disk (512 * (r.lba + dev.reqSize * k)) = 1 := by rw [hdisk, hP.frame _ hmissed]
  have hwant := hwritten (512 * (dev.reqSize * k)) (by omega)
  rw [← Nat.mul_add, hkept] at hwant
  exact absurd hwant (show (1 : UInt8) ≠ 0 by decide)

/-- Which writes are exact. -/
theorem writesSectors_iff : r.WritesSectors ↔ StartsFit r.lba dev.reqSize r.nsec
    ∧ (512 ∣ r.buf ∨ 512 * r.nsec ≤ bounceSize ∧ Disjoint r.buf dev.tbuf (512 * r.nsec)) := by
  constructor
  · intro h
    refine ⟨startsFit_of_write r h, ?_⟩
    by_cases hal : r.buf % 512 = 0
    · omega
    obtain ⟨fuel, s', hrun, -⟩ := h (flagged 0) rfl
    rcases nvmeWrite_bounced (s := flagged 0) r hal rfl fuel with ⟨hroom, -⟩ | ⟨hnone, -⟩
    · exact .inr hroom
    · rw [hrun] at hnone
      cases hnone
  · rintro ⟨hfit, hbuf⟩ s hs
    have hlast := r.lastCount_le_bounce
    obtain ⟨s', hrun⟩ : ∃ s', nvmeWrite dev r.lba r.buf r.nsec r.nsec s = some (0, s') := by
      by_cases hal : r.buf % 512 = 0
      · obtain ⟨s₁, hP, heq⟩ := (nvmeWrite_aligned r hal hs r.nsec).resolve_right (by omega)
        rw [heq]
        exact finishWrite_some hP.script hlast
      have hroom := hbuf.resolve_left (fun hd => hal (Nat.mod_eq_zero_of_dvd hd))
      obtain ⟨-, s₁, hP, heq⟩ := (nvmeWrite_bounced r hal hs r.nsec).resolve_right fun hnone =>
        hnone.2.elim (Nat.lt_irrefl _) fun hno => hno hroom
      rw [heq]
      exact finishWrite_some hP.script hlast
    obtain ⟨ram, buf, s₁, hP, hdisk, hram⟩ := nvmeWrite_disk r hs hrun
    refine ⟨r.nsec, s', hrun, fun x hx => ?_⟩
    rw [hdisk, hP.written hfit, Mem.copy_apply_in (by omega) (by omega), Nat.add_sub_cancel_left]
    exact hram x hx

end Write

/-- **Exact transfers**: with all commands succeeding, a transfer of a request is exact when the
    start of its last command fits in 32 bits and its buffer is aligned to sectors. Without the
    alignment a read is exact for a single command only, and a write as long as it has room in the
    bounce buffer, which must not overlap the buffer. -/
theorem transfer_exact_iff (dev : Dev) (r : Request dev) :
    (r.ReadsSectors ↔ r.lba + dev.reqSize * ((r.nsec - 1) / dev.reqSize) < 2 ^ 32
      ∧ (512 ∣ r.buf ∨ r.nsec ≤ dev.reqSize ∧ Disjoint r.buf dev.tbuf (512 * r.nsec)))
    ∧ (r.WritesSectors ↔ r.lba + dev.reqSize * ((r.nsec - 1) / dev.reqSize) < 2 ^ 32
      ∧ (512 ∣ r.buf ∨ 512 * r.nsec ≤ bounceSize ∧ Disjoint r.buf dev.tbuf (512 * r.nsec))) :=
  ⟨readsSectors_iff r, writesSectors_iff r⟩

/-- A controller that takes one sector a command. -/
def oneSector : Dev := ⟨100, 1, 0x8000, 0x3001000, by decide, by decide, by decide, by decide⟩

/-- Two sectors to a buffer that is not aligned. -/
def unaligned : Request oneSector :=
  ⟨0, 1, 2, by decide, by decide, by decide, by decide, by decide⟩

/-- The read of two sectors through the bounce buffer returns 0 and gives the buffer the first
    sector; its second sector is not stored, and keeps what it was. -/
theorem bounced_read_loses_sectors :
    (nvmeRead oneSector unaligned.lba unaligned.buf unaligned.nsec 2
        ⟨fun _ => 0, fun _ => 7, []⟩).map
      (fun q => (q.1, q.2.ram 1, q.2.ram 512, q.2.ram 513, q.2.ram 1024)) = some (0, 7, 7, 0, 0)
    ∧ ¬ unaligned.ReadsSectors := by
  refine ⟨by decide +kernel, ?_⟩
  rw [readsSectors_iff]
  decide

end Nvme
