import RkUboot.Fastboot.Effects

set_option autoImplicit false

/-! # The lock of the gadget

`priv.unlocked` is to keep the host from changing the storage until "oem unlock" and
"oem unlock_accept" were sent, and the latter is to wipe the user's data first. `Quiet` says what a
command that the lock stops leaves alone.

Two gaps are left. "erase:" and "oem erase" do not look at the lock. And the erase of userdata
succeeds without reaching the driver when the driver has no `Erase` or secure boot is locked. -/

namespace Fastboot

/-- The name of the partition that the command erases, if it is an erase. -/
def erasedName (cmdbuf : Mem) : Option (List UInt8) :=
  match commandOf cmdbuf with
  | .erase => some (cstrAt cmdbuf 6)
  | .oem => if startsWith cmdbuf 4 "erase " then some (cstrAt cmdbuf 10) else none
  | _ => none

/-- An erase does not get to the driver. -/
def Board.EraseSkipped (board : Board) : Prop := board.erase.isNone ∨ board.secureBootLock = true
  deriving Decidable

theorem rkimagePartitionErase_skipped {board : Board} (h : board.EraseSkipped) (ptn : DiskPartition)
    (io : Io) : rkimagePartitionErase board ptn io = (0, io) := by
  unfold rkimagePartitionErase
  split
  · rfl
  next erase herase =>
  rcases h with hnone | hlock
  · rw [herase] at hnone
    cases hnone
  · rw [if_pos hlock]

theorem rkimagePartitionErase_issued {board : Board} (h : ¬ board.EraseSkipped) (ptn : DiskPartition)
    (io : Io) :
    (rkimagePartitionErase board ptn io).2.events
      = .erase (ptn.start % 2 ^ 32) (ptn.size % 2 ^ 32) (rkimagePartitionErase board ptn io).1
        :: io.events := by
  unfold rkimagePartitionErase
  split
  · next hnone => exact absurd (.inl (by rw [hnone]; rfl)) h
  · rw [if_neg (fun hlock => h (.inr hlock))]

/-! ## Unlocking wipes the user's data -/

/-- The erase of a partition gets to the driver, with the extent of the whole partition. -/
def EraseReaches (board : Board) (ptn : DiskPartition) : Prop :=
  ¬ board.EraseSkipped ∧ ptn.start < 2 ^ 32 ∧ ptn.size < 2 ^ 32

/-- The erase of userdata is on record exactly if it got to the driver. -/
theorem eraseUserdata_issued_iff {board : Board} {s : State} (hev : s.events = [])
    (hstatus : (eraseUserdata board s).1 = 0) {i : Nat}
    (hi : getDiskPartition s.world (ascii "userdata") = some i) :
    .erase (s.world.parts i).start (s.world.parts i).size 0 ∈ (eraseUserdata board s).2.events ↔
      EraseReaches board (s.world.parts i) := by
  unfold eraseUserdata at hstatus ⊢
  rw [hi] at hstatus ⊢
  simp only [State.setIo] at hstatus ⊢
  by_cases hskip : board.EraseSkipped
  · rw [rkimagePartitionErase_skipped hskip]
    refine ⟨fun h => ?_, fun h => absurd hskip h.1⟩
    rw [State.io, hev] at h
    cases h
  · rw [rkimagePartitionErase_issued hskip, hstatus, State.io, hev, List.mem_singleton,
      Event.erase.injEq]
    refine ⟨fun h => ⟨hskip, ?_, ?_⟩, fun h => ⟨?_, ?_, rfl⟩⟩
    · omega
    · omega
    · exact (Nat.mod_eq_of_lt h.2.1).symm
    · exact (Nat.mod_eq_of_lt h.2.2).symm

/-- A request that is pending was made. -/
theorem requested_of_pending (board : Board) (unlocked : Bool) (w : World) (ts : List Tick)
    (h : (ts.foldl (Session.step board) (Session.boot unlocked w)).st.priv.unlockPendingStartTime
      ≠ 0) :
    ∃ a ∈ commandTrace board (Session.boot unlocked w) ts, IsOem a "unlock" := by
  induction ts using List.reverseRecOn with
  | nil => exact absurd rfl h
  | append_singleton ts t ih =>
    rw [commandTrace_append]
    rw [List.foldl_append, List.foldl_cons, List.foldl_nil] at h
    generalize ts.foldl (Session.step board) (Session.boot unlocked w) = x at ih h ⊢
    rcases doFastboot_pending (show (doFastboot board x.st t).priv.unlockPendingStartTime ≠ 0
      from h) with hbefore | ⟨a, ha, hoem⟩
    · obtain ⟨a, ha, hoem⟩ := ih hbefore
      exact ⟨a, List.mem_append_left _ ha, hoem⟩
    · exact ⟨a, List.mem_append_right _ (Option.mem_toList.2 ha), hoem⟩

/-- **In every run, an iteration that unlocks the device runs "oem unlock_accept" after an earlier
    "oem unlock"; and it erases the whole userdata partition, if there is one, exactly if an erase
    gets to the driver.** -/
theorem unlock_wipes_iff (board : Board) (unlocked : Bool) (w : World) (ts : List Tick) (t : Tick)
    {x : Session} (hx : ts.foldl (Session.step board) (Session.boot unlocked w) = x)
    (hbefore : x.st.priv.unlocked = false) (hafter : (x.step board t).st.priv.unlocked = true) :
    (∃ a ∈ commandTrace board (Session.boot unlocked w) ts, IsOem a "unlock") ∧
      (∃ b ∈ commandRead x.st t, IsOem b "unlock_accept") ∧
      ((∀ i ∈ getDiskPartition x.st.world (ascii "userdata"), ∃ es ∈ (x.step board t).history.head?,
          .erase (x.st.world.parts i).start (x.st.world.parts i).size 0 ∈ es) ↔
        ∀ i ∈ getDiskPartition x.st.world (ascii "userdata"),
          EraseReaches board (x.st.world.parts i)) := by
  have hev : x.st.events = [] := hx ▸ Session.foldl_step_events board unlocked w ts
  have hunlocked : (doFastboot board x.st t).priv.unlocked = true := hafter
  have hlock : (doFastboot board x.st t).priv.unlocked ≠ x.st.priv.unlocked := by
    rw [hunlocked, hbefore]
    decide
  rcases doFastboot_lock board x.st t with ⟨-, hsame, -⟩ | ⟨cmdbuf, hcmd, heffect⟩
  · exact absurd hsame hlock
  cases heffect with
  | kept hkept _ =>
    rcases hkept with hsame | hfalse
    · exact absurd hsame hlock
    · rw [hfalse] at hunlocked
      cases hunlocked
  | requested _ hsame => exact absurd hsame hlock
  | accepted hoem hrequest _ hstatus hevents =>
    refine ⟨requested_of_pending board unlocked w ts (hx ▸ hrequest), ⟨cmdbuf, hcmd, hoem⟩, ?_⟩
    refine forall₂_congr (fun i hi => ?_)
    rw [← eraseUserdata_issued_iff hev hstatus hi]
    simp [Session.step, hevents]

/-- A board whose driver can erase; the erase clears the blocks. -/
def erasingBoard : Board :=
  { sampleBoard 0 with
    erase := some (fun lba n dev => (0, { dev with disk := dev.disk.fill (512 * lba) 0 (512 * n) })) }

/-- Storage with a userdata partition of two blocks. -/
def userdataWorld : World where
  dev := ⟨fun _ => 255, []⟩
  parts _ := ⟨64, 2, 512, ascii "userdata", ascii "ext4"⟩
  numParts := 1
  ram := Mem.zero

/-- With an `Erase` function, the usual way to unlock wipes userdata. -/
theorem unlock_wipes_iff_erasing :
    ∃ x, x = [Tick.mk (some (ascii "oem unlock")) 1].foldl (Session.step erasingBoard)
        (Session.boot false userdataWorld) ∧
      x.st.priv.unlocked = false ∧
      (x.step erasingBoard ⟨some (ascii "oem unlock_accept"), 2⟩).st.priv.unlocked = true ∧
      ∀ i ∈ getDiskPartition x.st.world (ascii "userdata"),
        ∃ es ∈ (x.step erasingBoard ⟨some (ascii "oem unlock_accept"), 2⟩).history.head?,
          .erase (x.st.world.parts i).start (x.st.world.parts i).size 0 ∈ es := by
  refine ⟨_, rfl, by decide +kernel, by decide +kernel, ?_⟩
  refine (unlock_wipes_iff erasingBoard false userdataWorld [⟨some (ascii "oem unlock"), 1⟩]
    ⟨some (ascii "oem unlock_accept"), 2⟩ rfl (by decide +kernel) (by decide +kernel)).2.2.2 ?_
  intro i hi
  obtain rfl : 0 = i := Option.some.inj hi
  exact ⟨by decide, by decide +kernel, by decide +kernel⟩

/-- Without an `Erase` function the same two commands unlock the device and erase nothing. -/
theorem unlock_without_erase :
    ∃ x, x = [Tick.mk (some (ascii "oem unlock")) 1].foldl (Session.step (sampleBoard 0))
        (Session.boot false userdataWorld) ∧
      x.st.priv.unlocked = false ∧
      (x.step (sampleBoard 0) ⟨some (ascii "oem unlock_accept"), 2⟩).st.priv.unlocked = true ∧
      ¬ ∀ i ∈ getDiskPartition x.st.world (ascii "userdata"),
        ∃ es ∈ (x.step (sampleBoard 0) ⟨some (ascii "oem unlock_accept"), 2⟩).history.head?,
          .erase (x.st.world.parts i).start (x.st.world.parts i).size 0 ∈ es := by
  refine ⟨_, rfl, by decide +kernel, by decide +kernel, ?_⟩
  intro h
  obtain ⟨es, hes, hmem⟩ := h 0 (by decide +kernel)
  have hnone : ([Tick.mk (some (ascii "oem unlock")) 1, ⟨some (ascii "oem unlock_accept"), 2⟩].foldl
      (Session.step (sampleBoard 0)) (Session.boot false userdataWorld)).history.all
        (fun es => es.all (fun e => match e with | .erase .. => false | _ => true)) = true := by
    decide +kernel
  have hes' := List.all_eq_true.1 hnone es (List.mem_of_mem_head? hes)
  cases List.all_eq_true.1 hes' _ hmem

/-! ## What the lock stops -/

/-- The event is one of a command that changes the storage, or may change it. -/
def Event.Touches : Event → Prop
  | .write .. => True
  | .erase .. => True
  | .updateLoader _ => True
  | .saveEnv _ => True
  | .runCommand _ => True
  | .bootImage => True
  | .recoveryWipeData => True
  | .verifyBoot .. => False
  | .verifyUboot .. => False
  | .setRebootType _ => False

/-- Nothing was written or erased, and neither the lock nor the data phase changed. -/
structure Quiet (s s' : State) : Prop where
  disk : s'.world.dev.disk = s.world.dev.disk
  events : Appends (fun e => ¬ e.Touches) s.events s'.events
  unlocked : s'.priv.unlocked = s.priv.unlocked
  dSize : s'.priv.dSize = s.priv.dSize

section Quiet

variable {board : Board} {cmdbuf : Mem} {s s' s'' : State}

theorem Quiet.refl : Quiet s s := ⟨rfl, .refl, rfl, rfl⟩

theorem Quiet.trans (h : Quiet s s') (h' : Quiet s' s'') : Quiet s s'' :=
  ⟨h'.disk.trans h.disk, h.events.trans h'.events, h'.unlocked.trans h.unlocked,
    h'.dSize.trans h.dSize⟩

theorem Quiet.respond (text : List UInt8) : Quiet s (s.respond text) := ⟨rfl, .refl, rfl, rfl⟩

theorem State.MemOnly.quiet (h : State.MemOnly s s') : Quiet s s' :=
  ⟨by rw [h.dev], .of_eq h.events, by rw [h.priv], by rw [h.priv]⟩

theorem State.ReadOnly.quiet {p : Prop} (h : State.ReadOnly p s s') : Quiet s s' :=
  ⟨h.disk, .of_eq h.events, h.unlocked, h.dSize⟩

theorem expireUnlock_quiet (now : Nat) : Quiet s (expireUnlock now s) := by
  unfold expireUnlock
  split
  · exact ⟨rfl, .refl, rfl, rfl⟩
  · exact .refl

theorem fbtHandleErase_quiet {off : Nat}
    (h : getDiskPartition s.world (cstrAt cmdbuf off) = none ∨ board.EraseSkipped) :
    Quiet s (fbtHandleErase board cmdbuf off s) := by
  unfold fbtHandleErase
  split
  · exact .respond _
  next i hi =>
  rcases h with hnone | hskip
  · rw [hi] at hnone
    cases hnone
  · rw [rkimagePartitionErase_skipped hskip, if_pos rfl]
    exact ⟨rfl, .refl, rfl, rfl⟩

theorem fbtHandleReboot_quiet (text : List UInt8) : Quiet s (fbtHandleReboot text s) := by
  unfold fbtHandleReboot
  split
  · exact ⟨rfl, .cons not_false, rfl, rfl⟩
  split
  · exact ⟨rfl, .cons not_false, rfl, rfl⟩
  · split
    · exact ⟨rfl, .cons not_false, rfl, rfl⟩
    · exact ⟨rfl, .refl, rfl, rfl⟩

/-- What the erase commands must meet: the partition does not exist, or the erase is skipped. -/
def NoErase (board : Board) (w : World) (cmdbuf : Mem) : Prop :=
  ∀ name ∈ erasedName cmdbuf, getDiskPartition w name = none ∨ board.EraseSkipped
  deriving Decidable

theorem fbtHandleOem_quiet (now : Nat) (hoem : commandOf cmdbuf = .oem)
    (hlock : s.priv.unlocked = false) (herase : NoErase board s.world cmdbuf)
    (haccept : s.priv.unlockPendingStartTime ≠ 0 → ¬ IsOem cmdbuf "unlock_accept") :
    Quiet s (fbtHandleOem board now cmdbuf s) := by
  unfold fbtHandleOem
  simp only
  split
  · exact .respond _
  split
  · exact fbtHandleReboot_quiet _
  split
  · exact fbtHandleReboot_quiet _
  split
  · split
    · exact .respond _
    · exact ⟨rfl, .refl, rfl, rfl⟩
  split
  · next hcmd =>
    -- there is no request, so there is nothing to accept
    have hzero : s.priv.unlockPendingStartTime = 0 := by
      by_contra hne
      exact haccept hne ⟨hoem, hcmd⟩
    rw [oemUnlockAccept, if_pos hzero]
    exact .respond _
  split
  · exact .respond _
  split
  · next hstarts =>
    refine fbtHandleErase_quiet (herase _ ?_)
    rw [erasedName, hoem]
    rw [if_pos hstarts]
    rfl
  · exact .respond _

theorem fbtHandleFlash_locked (hlock : s.priv.unlocked = false) :
    fbtHandleFlash board cmdbuf s = s.respond (ascii "FAILdevice is locked") := by
  unfold fbtHandleFlash
  rw [if_pos hlock]

theorem fbtHandleDownload_quiet (hlock : s.priv.unlocked = false) :
    Quiet s (fbtHandleDownload cmdbuf s).2 := by
  unfold fbtHandleDownload
  rw [if_pos hlock]
  exact ⟨rfl, .refl, rfl, rfl⟩

/-- A locked device without a request to unlock does nothing but the erase commands. -/
theorem runCommand_quiet (now : Nat) (hlock : s.priv.unlocked = false)
    (herase : NoErase board s.world cmdbuf)
    (haccept : s.priv.unlockPendingStartTime ≠ 0 → ¬ IsOem cmdbuf "unlock_accept") :
    Quiet s (runCommand board now cmdbuf s).2 := by
  unfold runCommand
  simp only
  refine (Quiet.respond (ascii "FAIL")).trans ?_
  have hlock : (s.respond (ascii "FAIL")).priv.unlocked = false := hlock
  split
  · exact (fbtHandleGetvar_readOnly board cmdbuf _).quiet
  · next hoem => exact fbtHandleOem_quiet now hoem hlock herase haccept
  · next herased =>
    refine fbtHandleErase_quiet (herase _ ?_)
    rw [erasedName, herased]
    rfl
  · rw [fbtHandleFlash_locked hlock]
    exact ⟨rfl, .refl, rfl, rfl⟩
  · exact fbtHandleReboot_quiet _
  · exact ⟨rfl, .refl, rfl, rfl⟩
  · unfold fbtHandleBoot
    rw [if_pos hlock]
    exact .respond _
  · exact fbtHandleDownload_quiet hlock
  · exact .refl

/-- One iteration of a locked device without a request to unlock. -/
theorem doFastboot_quiet {t : Tick} (hlock : s.priv.unlocked = false) (hsize : s.priv.dSize = 0)
    (herase : ∀ cmdbuf ∈ commandRead s t, NoErase board s.world cmdbuf)
    (haccept : s.priv.unlockPendingStartTime ≠ 0 →
      ∀ cmdbuf ∈ commandRead s t, ¬ IsOem cmdbuf "unlock_accept") :
    Quiet s (doFastboot board s t) := by
  have hiter := doFastboot_iteration board s t
  generalize doFastboot board s t = s' at hiter ⊢
  cases hiter with
  | halted => exact .refl
  | idle s₁ hmem => exact hmem.quiet.trans (expireUnlock_quiet _)
  | data _ _ _ _ _ hdata => exact absurd hsize hdata
  | command cmdbuf s₁ s₂ hmem _ hcmd _ hrest =>
    have hrun : Quiet s₁ (runCommand board t.now cmdbuf s₁).2 := by
      refine runCommand_quiet t.now (by rw [hmem.priv]; exact hlock) ?_ ?_
      · intro name hname
        rw [hmem.getDiskPartition]
        exact herase cmdbuf hcmd name hname
      · rw [hmem.priv]
        exact fun hne => haccept hne cmdbuf hcmd
    exact ((hmem.quiet.trans hrun).trans hrest.quiet).trans (expireUnlock_quiet _)

end Quiet

/-- A run of a locked device: `trace` is what is left of its commands. -/
theorem locked_run (board : Board) (ts : List Tick) (x : Session)
    (hlock : x.st.priv.unlocked = false) (hsize : x.st.priv.dSize = 0) (hev : x.st.events = [])
    (haccept : x.st.priv.unlockPendingStartTime ≠ 0 →
      ∀ b ∈ commandTrace board x ts, ¬ IsOem b "unlock_accept")
    (htrace : (commandTrace board x ts).Pairwise
      (fun a b => ¬ (IsOem a "unlock" ∧ IsOem b "unlock_accept")))
    (herase : Run.Along (Session.step board)
      (fun x t => ∀ cmdbuf ∈ commandRead x.st t, NoErase board x.st.world cmdbuf) x ts)
    (hhistory : ∀ es ∈ x.history, ∀ e ∈ es, ¬ e.Touches) :
    (ts.foldl (Session.step board) x).st.world.dev.disk = x.st.world.dev.disk ∧
      ∀ es ∈ (ts.foldl (Session.step board) x).history, ∀ e ∈ es, ¬ e.Touches := by
  induction ts generalizing x with
  | nil => exact ⟨rfl, hhistory⟩
  | cons t ts ih =>
    rw [commandTrace] at haccept htrace
    obtain ⟨-, hrest, hacross⟩ := List.pairwise_append.1 htrace
    have hquiet : Quiet x.st (doFastboot board x.st t) := by
      refine doFastboot_quiet hlock hsize herase.1 (fun hne cmdbuf hcmd => ?_)
      exact haccept hne cmdbuf (List.mem_append_left _ (Option.mem_toList.2 hcmd))
    rw [List.foldl_cons]
    have hnext := ih (x.step board t) (hquiet.unlocked.trans hlock) (hquiet.dSize.trans hsize) rfl
      ?_ hrest herase.2 ?_
    · exact ⟨hnext.1.trans hquiet.disk, hnext.2⟩
    · -- a request now pending was pending before, or this iteration read "oem unlock"
      intro hne b hb
      rcases doFastboot_pending (show (doFastboot board x.st t).priv.unlockPendingStartTime ≠ 0
        from hne) with hbefore | ⟨a, ha, hoem⟩
      · exact haccept hbefore b (List.mem_append_right _ hb)
      · exact fun hb' => hacross a (Option.mem_toList.2 ha) b hb ⟨hoem, hb'⟩
    · intro es hes e he
      rcases List.mem_cons.1 hes with rfl | hes
      · rcases hquiet.events.mem he with hn | hn
        · exact hn
        · rw [hev] at hn
          cases hn
      · exact hhistory es hes e he

/-- **Along every run that starts locked, in which no "oem unlock" is followed by an
    "oem unlock_accept" and no erase command finds its partition while erases get to the driver,
    the contents of the storage stay as they were, and no command writes or erases.** -/
theorem locked_storage_unchanged (board : Board) (w : World) (ts : List Tick)
    (htrace : (commandTrace board (Session.boot false w) ts).Pairwise
      (fun a b => ¬ (IsOem a "unlock" ∧ IsOem b "unlock_accept")))
    (herase : Run.Along (Session.step board)
      (fun x t => ∀ cmdbuf ∈ commandRead x.st t, NoErase board x.st.world cmdbuf)
      (Session.boot false w) ts) :
    (ts.foldl (Session.step board) (Session.boot false w)).st.world.dev.disk = w.dev.disk ∧
      ∀ es ∈ (ts.foldl (Session.step board) (Session.boot false w)).history,
        ∀ e ∈ es, ¬ e.Touches :=
  locked_run board ts (Session.boot false w) rfl rfl rfl (fun h => absurd rfl h) htrace herase
    (fun _ hes => absurd hes List.not_mem_nil)

/-- An attempt to flash a locked device. -/
def lockedFlash : List Tick :=
  [say "oem unlock", say "getvar:partition-type:userdata", say "download:00000041",
    say "flash:userdata", say "oem lock", say "erase:cache"]

theorem locked_storage_unchanged_flash :
    (lockedFlash.foldl (Session.step erasingBoard) (Session.boot false userdataWorld)).st.world.dev.disk
        = userdataWorld.dev.disk ∧
      ∀ es ∈ (lockedFlash.foldl (Session.step erasingBoard)
        (Session.boot false userdataWorld)).history, ∀ e ∈ es, ¬ e.Touches :=
  locked_storage_unchanged erasingBoard userdataWorld lockedFlash (by decide +kernel)
    (by decide +kernel)

/-- A locked device erases a partition when it is told to. -/
theorem locked_erase_erases :
    (commandTrace erasingBoard (Session.boot false userdataWorld) [say "erase:userdata"]).Pairwise
        (fun a b => ¬ (IsOem a "unlock" ∧ IsOem b "unlock_accept")) ∧
      ([say "erase:userdata"].foldl (Session.step erasingBoard)
        (Session.boot false userdataWorld)).st.world.dev.disk ≠ userdataWorld.dev.disk := by
  refine ⟨by decide +kernel, fun h => ?_⟩
  -- the first byte of userdata was 255
  have hbyte : ([say "erase:userdata"].foldl (Session.step erasingBoard)
      (Session.boot false userdataWorld)).st.world.dev.disk 32768 = 0 := by
    decide +kernel
  rw [h] at hbyte
  cases hbyte

end Fastboot
