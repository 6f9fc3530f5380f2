import RkUboot.Fastboot.Effects

set_option autoImplicit false

/-! # Verified flashing

An image for the boot, recovery or uboot partition is to be accepted by the secure boot check during
the flash command that writes it. `rkimage_store_image` picks the check by the name of the *pending*
partition, which an earlier `getvar:partition-type:` set, and writes to the partition the flash
command names. The two agree in every run in which, at each flash command, the pending partition
calls for the same check as the named one. -/

namespace Fastboot

/-! ## The property -/

/-- Among the events of one packet, every write to the boot or recovery partition is of an image the
    boot check accepted, and every write to the uboot partition is of one the uboot check accepted. -/
def Verified (es : List Event) : Prop :=
  ∀ ptn image, ∀ e ∈ es, e.Writes (.partition ptn) image →
    (ptn.name = bootName ∨ ptn.name = recoveryName → Event.verifyBoot image true ∈ es) ∧
    (ptn.name = ubootName → Event.verifyUboot image true ∈ es)

/-- A flash command for `name` gets to the part of `rkimage_store_image` that looks at the pending
    partition. -/
def StoresLegacy (s : State) (name : List UInt8) : Prop :=
  s.priv.unlocked = true ∧ s.priv.dBytes ≠ 0 ∧ s.priv.dLegacy = true ∧
    name ≠ parameterName ∧ name ≠ loaderName
  deriving Decidable

/-- The pending partition calls for the check that the partition `name` needs. -/
def SameCheck (pending : DiskPartition) (name : List UInt8) : Prop :=
  (name = bootName ∨ name = recoveryName → pending.name = bootName ∨ pending.name = recoveryName) ∧
    (name = ubootName → pending.name = ubootName)
  deriving Decidable

/-- What a flash command must meet in the state before it: there is a pending partition, and it
    calls for the check that the named one needs. -/
def PendingMatches (s : State) (t : Tick) : Prop :=
  ∀ cmdbuf ∈ commandRead s t, commandOf cmdbuf = .flash → StoresLegacy s (cstrAt cmdbuf 6) →
    ∃ pending ∈ s.pending, SameCheck pending (cstrAt cmdbuf 6)
  deriving Decidable

/-- Events without a write to a partition need no check. -/
theorem Verified.of_appends {es : List Event} (h : Appends (fun e => ¬ e.Flashes) [] es) :
    Verified es := by
  intro ptn image e he hw
  rcases h.mem he with hn | hn
  · exact absurd hw.flashes hn
  · cases hn

/-! ## Storing an image -/

variable {board : Board} {pending : DiskPartition} {s : State}

/-- The check leaves the image alone and, once passed, is on record. -/
theorem checkImage_accepted
    (h : (checkImage board pending s).1 = true) :
    (checkImage board pending s).2.world = s.world ∧
      (pending.name = bootName ∨ pending.name = recoveryName →
        Event.verifyBoot s.world.ram true ∈ (checkImage board pending s).2.events) ∧
      (pending.name = ubootName →
        Event.verifyUboot s.world.ram true ∈ (checkImage board pending s).2.events) := by
  unfold checkImage at h ⊢
  by_cases hboot : pending.name = recoveryName ∨ pending.name = bootName
  · rw [if_pos hboot] at h ⊢
    simp only at h
    refine ⟨rfl, fun _ => ?_, fun hu => ?_⟩
    · simp [h]
    · rw [hu] at hboot
      exact absurd hboot (by decide)
  · rw [if_neg hboot] at h ⊢
    by_cases huboot : pending.name = ubootName
    · rw [if_pos huboot] at h ⊢
      simp only at h
      exact ⟨rfl, fun hb => absurd hb.symm hboot, fun _ => by simp [h]⟩
    · rw [if_neg huboot]
      exact ⟨rfl, fun hb => absurd hb.symm hboot, fun hu => absurd hu huboot⟩

theorem checkImage_not_flashes (board : Board) (pending : DiskPartition) (s : State) :
    Appends (fun e => ¬ e.Flashes) s.events (checkImage board pending s).2.events :=
  (checkImage_appends pending).mono (fun _ h hf => h hf.isWrite)

variable {name : List UInt8} {ptn : Option DiskPartition}

/-- A legacy image is stored verified if the pending partition calls for the right check. -/
theorem storeLegacy_verified (hev : s.events = []) (hptn : ∀ p ∈ ptn, p.name = name)
    (hsame : SameCheck pending name) (haccept : (checkImage board pending s).1 = true) :
    Verified (storeLegacy ptn (checkImage board pending s).2).2.events := by
  obtain ⟨hworld, hboot, huboot⟩ := checkImage_accepted haccept
  have happ := storeLegacy_appends (s := (checkImage board pending s).2) ptn
  have hcheck := checkImage_not_flashes board pending s
  rw [hworld] at happ
  rw [hev] at hcheck
  intro p image e he hw
  rcases happ.mem he with ⟨p', hp', hw'⟩ | hin
  · -- a write of the image that was checked, to the partition called `name`
    obtain ⟨_, _, _, _, rfl⟩ := hw
    obtain ⟨_, _, _, _, heq⟩ := hw'
    injection heq with htarget _ _ himage
    injection htarget with hp
    subst hp himage
    rw [hptn p hp']
    exact ⟨fun h => happ.subset (hboot (hsame.1 h)), fun h => happ.subset (huboot (hsame.2 h))⟩
  · -- the check itself writes nothing
    rcases hcheck.mem hin with hn | hn
    · exact absurd hw.flashes hn
    · cases hn

theorem rkimageStoreImage_verified (board : Board) (hev : s.events = []) (hptn : ∀ p ∈ ptn, p.name = name)
    (hsame : s.priv.dLegacy = true → name ≠ parameterName → name ≠ loaderName →
      ∃ pending ∈ s.pending, SameCheck pending name) :
    Verified (rkimageStoreImage board name ptn s).2.events := by
  have hnone : Verified s.events := .of_appends (.of_eq hev)
  unfold rkimageStoreImage
  by_cases hparam : name = parameterName
  · rw [if_pos hparam]
    refine .of_appends ?_
    rw [← hev]
    refine (writeParameter_appends ..).mono ?_
    rintro e ⟨_, _, _, _, rfl⟩
    exact not_false
  rw [if_neg hparam]
  by_cases hloader : name = loaderName
  · rw [if_pos hloader]
    split
    · refine .of_appends ?_
      rw [← hev]
      exact .cons not_false
    · exact hnone
  rw [if_neg hloader]
  by_cases hlegacy : s.priv.dLegacy = false
  · rw [if_pos hlegacy]
    split <;> exact hnone
  rw [if_neg hlegacy]
  obtain ⟨pending, hpending, hcheck⟩ := hsame (by simpa using hlegacy) hparam hloader
  rw [Option.mem_def] at hpending
  simp only [hpending]
  split
  · next haccept => exact storeLegacy_verified hev hptn hcheck haccept
  · refine .of_appends ?_
    rw [← hev]
    exact checkImage_not_flashes board pending s

/-! ## The commands -/

theorem fbtHandleFlash_verified (board : Board) (cmdbuf : Mem) (hev : s.events = [])
    (hsame : StoresLegacy s (cstrAt cmdbuf 6) →
      ∃ pending ∈ s.pending, SameCheck pending (cstrAt cmdbuf 6)) :
    Verified (fbtHandleFlash board cmdbuf s).events := by
  have hnone : Verified s.events := .of_appends (.of_eq hev)
  have hptn : ∀ p ∈ (getDiskPartition s.world (cstrAt cmdbuf 6)).map s.world.parts,
      p.name = cstrAt cmdbuf 6 := by
    intro p hp
    obtain ⟨i, hi, rfl⟩ := Option.map_eq_some_iff.1 hp
    exact getDiskPartition_name hi
  unfold fbtHandleFlash
  simp only
  by_cases hlock : s.priv.unlocked = false
  · rw [if_pos hlock]
    exact hnone
  rw [if_neg hlock]
  by_cases hbytes : s.priv.dBytes = 0
  · rw [if_pos hbytes]
    exact hnone
  rw [if_neg hbytes]
  have hstore := rkimageStoreImage_verified board hev hptn (fun hlegacy hparam hloader =>
    hsame ⟨by simpa using hlock, hbytes, hlegacy, hparam, hloader⟩)
  split <;> exact hstore

theorem runCommand_verified (board : Board) (now : Nat) (cmdbuf : Mem)
    (hev : s.events = [])
    (hsame : commandOf cmdbuf = .flash → StoresLegacy s (cstrAt cmdbuf 6) →
      ∃ pending ∈ s.pending, SameCheck pending (cstrAt cmdbuf 6)) :
    Verified (runCommand board now cmdbuf s).2.events := by
  by_cases hflash : commandOf cmdbuf = .flash
  · unfold runCommand
    simp only [hflash]
    exact fbtHandleFlash_verified board cmdbuf hev (hsame hflash)
  · refine .of_appends ?_
    rw [← hev]
    exact (runCommand_effect board now cmdbuf s).events.mono (fun _ h hf => hflash (h.2 hf))

/-! ## Packets and runs -/

/-- One iteration: a flash command with a matching pending partition writes verified images. -/
theorem doFastboot_verified (board : Board) {t : Tick} (hev : s.events = [])
    (h : PendingMatches s t) : Verified (doFastboot board s t).events := by
  have hnone : Verified s.events := .of_appends (.of_eq hev)
  have hiter := doFastboot_iteration board s t
  generalize doFastboot board s t = s' at hiter ⊢
  cases hiter with
  | halted => exact hnone
  | idle s' hmem =>
    rw [expireUnlock_events, hmem.events]
    exact hnone
  | data p length s₁ s₂ hmem hsize hcmd hdata hrest =>
    rw [expireUnlock_events, hrest.events]
    refine .of_appends ?_
    rw [← hev, ← hmem.events]
    exact (rxData_streams p length s₁).mono (fun _ h => h.not_flashes)
  | command cmdbuf s₁ s₂ hmem hsize hcmd hdata hrest =>
    rw [expireUnlock_events, hrest.events]
    refine runCommand_verified board t.now cmdbuf (hmem.events.trans hev) ?_
    intro hflash hlegacy
    rw [StoresLegacy, hmem.priv] at hlegacy
    rw [hmem.pending]
    exact h cmdbuf hcmd hflash hlegacy

/-- **Along every run of packets on an unlocked device in which the pending partition matches at
    each flash command, every write a flash command makes to the boot, recovery or uboot partition
    is of an image that the check for that partition accepted during the same command.** -/
theorem flash_writes_verified (board : Board) (w : World) (ts : List Tick)
    (h : Run.Along (Session.step board) (fun x t => PendingMatches x.st t) (Session.start w) ts) :
    ∀ es ∈ (ts.foldl (Session.step board) (Session.start w)).history, Verified es := by
  refine (Run.along_invariant
    (I := fun x : Session => x.st.events = [] ∧ ∀ es ∈ x.history, Verified es) ?_ ts _ ?_ h).2
  · rintro x t ⟨hev, hx⟩ hmatch
    refine ⟨rfl, fun es hes => ?_⟩
    rcases List.mem_cons.1 hes with rfl | hes
    · exact doFastboot_verified board hev hmatch
    · exact hx es hes
  · exact ⟨rfl, fun es hes => absurd hes List.not_mem_nil⟩

/-- Does the event write to the boot partition? -/
def Event.writesBoot : Event → Bool
  | .write (.partition ptn) .. => ptn.name = bootName
  | _ => false

/-- Is the event a boot check? -/
def Event.isVerifyBoot : Event → Bool
  | .verifyBoot .. => true
  | _ => false

/-- An image of 65 bytes. -/
def sampleImage : Tick := ⟨some (List.replicate 65 170), 0⟩

/-- The usual way to flash: the host asks for the type of the partition first. -/
def flashBoot : List Tick :=
  [say "getvar:partition-type:boot", say "download:00000041", sampleImage, say "flash:boot"]

/-- The image is accepted, and the boot partition written. -/
theorem flash_writes_verified_boot :
    Run.Along (Session.step (sampleBoard 170)) (fun x t => PendingMatches x.st t)
        (Session.start sampleWorld) flashBoot ∧
      (flashBoot.foldl (Session.step (sampleBoard 170)) (Session.start sampleWorld)).history.any
        (fun es => es.any Event.writesBoot) = true ∧
      ∀ es ∈ (flashBoot.foldl (Session.step (sampleBoard 170))
        (Session.start sampleWorld)).history, Verified es := by
  have h : Run.Along (Session.step (sampleBoard 170)) (fun x t => PendingMatches x.st t)
      (Session.start sampleWorld) flashBoot := by decide +kernel
  exact ⟨h, by decide +kernel, flash_writes_verified (sampleBoard 170) sampleWorld flashBoot h⟩

/-- The host asks for another partition between download and flash. -/
def flashBootUnchecked : List Tick :=
  [say "getvar:partition-type:boot", say "download:00000041", sampleImage,
    say "getvar:partition-type:system", say "flash:boot"]

/-- With another partition pending, an image that the boot check would refuse is written to the boot
    partition without a check. -/
theorem pending_system_flashes_boot :
    ¬ ∀ es ∈ (flashBootUnchecked.foldl (Session.step (sampleBoard 0))
      (Session.start sampleWorld)).history, Verified es := by
  intro h
  have hwrite : (flashBootUnchecked.foldl (Session.step (sampleBoard 0))
      (Session.start sampleWorld)).history.any
        (fun es => es.any Event.writesBoot && !es.any Event.isVerifyBoot) = true := by
    decide +kernel
  obtain ⟨es, hes, hboth⟩ := List.any_eq_true.1 hwrite
  rw [Bool.and_eq_true, Bool.not_eq_true', List.any_eq_true, List.any_eq_false] at hboth
  obtain ⟨⟨e, he, hboot⟩, hnone⟩ := hboth
  cases e with
  | write target lba n image off ok =>
    cases target with
    | partition ptn =>
      have hname : ptn.name = bootName := of_decide_eq_true hboot
      have hchecked := (h es hes ptn image _ he ⟨lba, n, off, ok, rfl⟩).1 (.inl hname)
      exact hnone _ hchecked rfl
    | _ => exact absurd hboot nofun
  | _ => exact absurd hboot nofun

end Fastboot
