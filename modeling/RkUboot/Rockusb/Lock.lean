import RkUboot.Rockusb.Dwc3

set_option autoImplicit false

/-! # The lock of the gadget

With `SecureBootLock` set, no block of either address space is to change, nor the system-data sectors
0 and 1, which hold the boot configuration and the keys. `Quiet` says that a piece of the main loop
keeps to that; every piece of it does, for both controllers, with three exceptions. `K_FW_ERASE_DATA`
does not ask for the lock at all. The request to lock the loader stores sector 1 whenever the stored key
information does not say "locked" yet, whatever `SecureBootLock` says. And system data may be written
with the lock set, at any sector number: on a card the sectors from 128 on are the LBA blocks. -/

namespace Rockusb

/-- The event leaves the blocks and the first two system-data sectors alone. -/
def Event.Harmless : Event → Prop
  | .op (.sysDataStore index _) => 2 ≤ index
  | .op _ => False
  | _ => True

/-- The next `rkusb_reset_check` does not store the key information. -/
def Unarmed (env : Env) (s : State) : Prop :=
  s.resetFlag = 0x10 → ¬ (env.canLock ∧ drmLock s.drmKeyInfo = 0)

/-- What a locked gadget may do on the way from `s` to `s'`. -/
structure Quiet (env : Env) (s s' : State) : Prop where
  lock : s'.secureBootLock = s.secureBootLock
  lba : s'.medium.lba = s.medium.lba
  pba : s'.medium.pba = s.medium.pba
  sys : ∀ i < 2, s'.medium.sys i = s.medium.sys i
  log : ∀ e ∈ s'.log, e ∈ s.log ∨ e.Harmless
  unarmed : Unarmed env s → Unarmed env s'

/-- What the lock is about. -/
def State.guarded (s : State) : Bool × Medium × List Event × Nat × Mem :=
  (s.secureBootLock, s.medium, s.log, s.resetFlag, s.drmKeyInfo)

namespace Quiet

variable {env : Env} {s t u : State}

/-- Nothing that the lock is about has changed. -/
theorem of_same (h : t.guarded = s.guarded) : Quiet env s t := by
  simp only [State.guarded, Prod.mk.injEq] at h
  obtain ⟨hlock, hmedium, hlog, hflag, hdrm⟩ := h
  refine ⟨hlock, by rw [hmedium], by rw [hmedium], fun i _ => by rw [hmedium],
    fun e he => .inl (hlog ▸ he), fun h => ?_⟩
  rwa [Unarmed, hflag, hdrm]

theorem refl : Quiet env s s := of_same rfl

theorem trans (hst : Quiet env s t) (htu : Quiet env t u) : Quiet env s u where
  lock := htu.lock.trans hst.lock
  lba := htu.lba.trans hst.lba
  pba := htu.pba.trans hst.pba
  sys := fun i hi => (htu.sys i hi).trans (hst.sys i hi)
  log := fun e he => (htu.log e he).elim (hst.log e) .inr
  unarmed := fun h => htu.unarmed (hst.unarmed h)

/-- A harmless event, and nothing else. -/
theorem emit {e : Event} (h : t.guarded = (s.emit e).guarded) (he : e.Harmless) : Quiet env s t := by
  have hemit : Quiet env s (s.emit e) :=
    { (refl : Quiet env s s) with
      log := fun e' he' => (List.mem_cons.1 he').elim (fun heq => .inr (heq ▸ he)) .inl }
  exact hemit.trans (of_same h)

end Quiet

variable {env : Env} {s : State}

/-! ## The pieces of the main loop -/

/-- If received blocks go to system-data sectors, these are no LBA blocks. -/
def State.SysClear (s : State) (blocks : Nat) : Prop :=
  s.cmnd = .lbaWrite10 → 0xFFFFFF00 ≤ s.lba →
    ∀ i < blocks, s.medium.sysLba (s.lba - 0xFFFFFF00 + 2 + i) = none

/-- Where received blocks go. -/
def State.target (s : State) : Command × Nat × Medium := (s.cmnd, s.lba, s.medium)

theorem State.SysClear.of_same {t : State} {blocks : Nat} (h : s.SysClear blocks)
    (hsame : t.target = s.target) : t.SysClear blocks := by
  simp only [State.target, Prod.mk.injEq] at hsame
  rwa [State.SysClear, hsame.1, hsame.2.1, hsame.2.2]

namespace Dwc3

variable {g : Dwc3}

end Dwc3

/-! ## Runs -/

/-- What the lock is to keep: the blocks and the first two system-data sectors are those of `medium`, and
every operation so far left them alone. -/
structure Kept (medium : Medium) (s : State) : Prop where
  lba : s.medium.lba = medium.lba
  pba : s.medium.pba = medium.pba
  sys : ∀ i < 2, s.medium.sys i = medium.sys i
  log : ∀ e ∈ s.log, e.Harmless

theorem Quiet.kept {start : State} (h : Quiet env start s) (hlog : start.log = []) :
    Kept start.medium s :=
  ⟨h.lba, h.pba, h.sys, fun e he =>
    (h.log e he).resolve_left (fun hold => absurd (hlog ▸ hold) List.not_mem_nil)⟩

end Rockusb
