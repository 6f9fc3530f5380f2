import RkUboot.Fastboot.Session

set_option autoImplicit false

/-! # What a command can do

`CommandEffect` says once, for every command, what it can do to the lock, to the data phase, to the
events and to the pending partition. -/

namespace Fastboot

/-- The command is "oem" with this argument. -/
def IsOem (cmdbuf : Mem) (text : String) : Prop :=
  commandOf cmdbuf = .oem ∧ cstrAt cmdbuf 4 = ascii text
  deriving Decidable

/-! ## Events -/

/-- The event is a write to the storage. -/
def Event.IsWrite : Event → Prop
  | .write .. => True
  | _ => False

/-- The event is a write a flash command makes to a partition. -/
def Event.Flashes : Event → Prop
  | .write (.partition _) .. => True
  | _ => False

variable {e : Event} {cmdbuf image : Mem}

theorem Event.Writes.flashes {ptn : DiskPartition}
    (h : e.Writes (.partition ptn) image) : e.Flashes := by
  obtain ⟨_, _, _, _, rfl⟩ := h
  trivial

theorem Event.Flashes.isWrite (h : e.Flashes) : e.IsWrite := by
  cases e with
  | write => trivial
  | _ => exact absurd h not_false

theorem Event.Writes.not_streams {target : Target}
    (h : e.Writes target image) (htarget : ∀ ptn, target ≠ .stream ptn) : ¬ e.Streams := by
  rintro ⟨ptn, _, _, _, _, _, heq⟩
  obtain ⟨_, _, _, _, rfl⟩ := h
  injection heq with hstream
  exact htarget ptn hstream

theorem Event.Streams.not_flashes (h : e.Streams) : ¬ e.Flashes := by
  obtain ⟨_, _, _, _, _, _, rfl⟩ := h
  exact not_false

/-- What the events of a command are: a command never streams, and only "flash:" writes to a
    partition by its name. -/
def Event.ByCommand (cmdbuf : Mem) (e : Event) : Prop :=
  ¬ e.Streams ∧ (e.Flashes → commandOf cmdbuf = .flash)

theorem Event.not_streams_of_not_write (h : ¬ e.IsWrite) : ¬ e.Streams := by
  rintro ⟨_, _, _, _, _, _, rfl⟩
  exact h trivial

theorem Event.byCommand_of_not_write (h : ¬ e.IsWrite) :
    e.ByCommand cmdbuf :=
  ⟨not_streams_of_not_write h, fun hflash => absurd hflash.isWrite h⟩

/-! ## Commands -/

/-- What a command can do to the lock. -/
inductive LockEffect (board : Board) (cmdbuf : Mem) (s s' : State) : Prop
  | kept (hunlocked : s'.priv.unlocked = s.priv.unlocked ∨ s'.priv.unlocked = false)
      (hpending : s'.priv.unlockPendingStartTime = s.priv.unlockPendingStartTime ∨
        s'.priv.unlockPendingStartTime = 0)
  | requested (hcmd : IsOem cmdbuf "unlock") (hunlocked : s'.priv.unlocked = s.priv.unlocked)
  | accepted (hcmd : IsOem cmdbuf "unlock_accept") (hrequest : s.priv.unlockPendingStartTime ≠ 0)
      (hpending : s'.priv.unlockPendingStartTime = 0)
      (hstatus : (eraseUserdata board s).1 = 0)
      (hevents : s'.events
        = .recoveryWipeData :: .saveEnv true :: (eraseUserdata board s).2.events)

/-- What a command can do. It starts a data phase, or none. -/
structure CommandEffect (board : Board) (cmdbuf : Mem) (s s' : State) : Prop where
  lock : LockEffect board cmdbuf s s'
  dSize : s'.priv.dSize = s.priv.dSize ∨
    s'.priv.dBytes = 0 ∧ s'.priv.transferBufferSize = usbMaxTransSize
  events : Appends (Event.ByCommand cmdbuf) s.events s'.events
  pendingPtn : commandOf cmdbuf ≠ .flash → commandOf cmdbuf ≠ .getvar →
    s'.priv.pendingPtn = s.priv.pendingPtn

/-- Most commands leave the lock, the data phase and the pending partition alone; `P` is what they
    log. -/
structure Answered (P : Event → Prop) (s s' : State) : Prop where
  unlocked : s'.priv.unlocked = s.priv.unlocked
  unlockPendingStartTime : s'.priv.unlockPendingStartTime = s.priv.unlockPendingStartTime
  dSize : s'.priv.dSize = s.priv.dSize
  events : Appends P s.events s'.events
  pendingPtn : s'.priv.pendingPtn = s.priv.pendingPtn

/-- The event is no write. -/
abbrev Event.NoWrite (e : Event) : Prop := ¬ e.IsWrite

section CommandEffect

variable {P : Event → Prop} {board : Board} {cmdbuf : Mem} {s s' : State}

variable (ptn : Option DiskPartition) (pending : DiskPartition) (text : List UInt8) (name : List UInt8)

theorem Answered.respond : Answered P s (s.respond text) := ⟨rfl, rfl, rfl, .refl, rfl⟩

theorem Answered.effect (h : Answered Event.NoWrite s s') : CommandEffect board cmdbuf s s' :=
  ⟨.kept (.inl h.unlocked) (.inl h.unlockPendingStartTime), .inl h.dSize,
    h.events.mono (fun _ => Event.byCommand_of_not_write), fun _ _ => h.pendingPtn⟩

theorem rkimagePartitionErase_appends (board : Board) (ptn : DiskPartition) (io : Io) :
    Appends Event.NoWrite io.events (rkimagePartitionErase board ptn io).2.events := by
  unfold rkimagePartitionErase
  split
  · exact .refl
  · split
    · exact .refl
    · exact .cons not_false

theorem fbtHandleErase_answered (off : Nat) :
    Answered Event.NoWrite s (fbtHandleErase board cmdbuf off s) := by
  unfold fbtHandleErase
  split
  · exact .respond _
  next i _ =>
  have he := rkimagePartitionErase_appends board (s.world.parts i) s.io
  simp only
  split <;> exact ⟨rfl, rfl, rfl, he, rfl⟩

theorem fbtHandleReboot_answered : Answered Event.NoWrite s (fbtHandleReboot text s) := by
  unfold fbtHandleReboot
  split
  · exact ⟨rfl, rfl, rfl, .cons not_false, rfl⟩
  split
  · exact ⟨rfl, rfl, rfl, .cons not_false, rfl⟩
  · split
    · exact ⟨rfl, rfl, rfl, .cons not_false, rfl⟩
    · exact ⟨rfl, rfl, rfl, .refl, rfl⟩

theorem fbtHandleBoot_answered : Answered Event.NoWrite s (fbtHandleBoot board s) := by
  unfold fbtHandleBoot
  split
  · exact .respond _
  · split
    · exact ⟨rfl, rfl, rfl, .cons not_false, rfl⟩
    · exact .respond _

theorem State.ReadOnly.effect {p : Prop} (h : State.ReadOnly p s s') (hcmd : commandOf cmdbuf = .getvar) :
    CommandEffect board cmdbuf s s' :=
  ⟨.kept (.inl h.unlocked) (.inl h.unlockPendingStartTime), .inl h.dSize, .of_eq h.events,
    fun _ hne => absurd hcmd hne⟩

/-- The erase of userdata looks at the storage and the partition table only. -/
theorem eraseUserdata_priv (priv : Interface) :
    eraseUserdata board { s with priv := priv }
      = ((eraseUserdata board s).1, { (eraseUserdata board s).2 with priv := priv }) := by
  unfold eraseUserdata
  simp only
  split <;> rfl

theorem eraseUserdata_appends :
    Appends Event.NoWrite s.events (eraseUserdata board s).2.events := by
  unfold eraseUserdata
  split
  · exact .refl
  · exact rkimagePartitionErase_appends board _ s.io

theorem oemUnlockAccept_effect (hcmd : IsOem cmdbuf "unlock_accept") :
    CommandEffect board cmdbuf s (oemUnlockAccept board s) := by
  have he : Appends (Event.ByCommand cmdbuf) s.events (eraseUserdata board s).2.events :=
    eraseUserdata_appends.mono (fun _ => Event.byCommand_of_not_write)
  unfold oemUnlockAccept
  by_cases hzero : s.priv.unlockPendingStartTime = 0
  · rw [if_pos hzero]
    exact (Answered.respond _).effect
  rw [if_neg hzero, eraseUserdata_priv]
  by_cases hstatus : (eraseUserdata board s).1 = 0
  · rw [if_pos hstatus]
    refine ⟨.accepted hcmd hzero rfl hstatus rfl, .inl rfl, he.trans ?_, fun _ _ => rfl⟩
    exact (Appends.cons (e := .saveEnv true) (Event.byCommand_of_not_write not_false)).trans
      (.cons (Event.byCommand_of_not_write not_false))
  · rw [if_neg hstatus]
    exact ⟨.kept (.inl rfl) (.inr rfl), .inl rfl, he, fun _ _ => rfl⟩

theorem fbtHandleOem_effect (now : Nat) (hoem : commandOf cmdbuf = .oem) :
    CommandEffect board cmdbuf s (fbtHandleOem board now cmdbuf s) := by
  unfold fbtHandleOem
  simp only
  split
  · exact (Answered.respond _).effect
  split
  · exact (fbtHandleReboot_answered _).effect
  split
  · exact (fbtHandleReboot_answered _).effect
  split
  · next hunlock =>
    split
    · exact (Answered.respond _).effect
    · exact ⟨.requested ⟨hoem, hunlock⟩ rfl, .inl rfl, .refl, fun _ _ => rfl⟩
  split
  · next haccept => exact oemUnlockAccept_effect ⟨hoem, haccept⟩
  split
  · split
    · exact (Answered.respond _).effect
    · exact ⟨.kept (.inr rfl) (.inl rfl), .inl rfl,
        .cons (Event.byCommand_of_not_write not_false), fun _ _ => rfl⟩
  split
  · exact (fbtHandleErase_answered 10).effect
  split
  · exact (Answered.respond _).effect
  split
  · exact Answered.effect ⟨rfl, rfl, rfl, .cons not_false, rfl⟩
  · exact (Answered.respond _).effect

/-! ## The flash command -/

theorem checkImage_priv : (checkImage board pending s).2.priv = s.priv := by
  unfold checkImage
  split
  · rfl
  · split <;> rfl

theorem checkImage_appends :
    Appends Event.NoWrite s.events (checkImage board pending s).2.events := by
  unfold checkImage
  split
  · exact .cons not_false
  · split
    · exact .cons not_false
    · exact .refl

theorem storeLegacy_priv : (storeLegacy ptn s).2.priv = s.priv := by
  cases ptn with
  | none => rfl
  | some ptn => rfl

theorem storeLegacy_appends :
    Appends (fun e => ∃ p ∈ ptn, e.Writes (.partition p) s.world.ram) s.events
      (storeLegacy ptn s).2.events := by
  cases ptn with
  | none => exact .refl
  | some p => exact (rkimgStoreImage_appends _ p _ s.io).mono (fun e h => ⟨p, rfl, h⟩)

theorem rkimageStoreImage_priv : (rkimageStoreImage board name ptn s).2.priv = s.priv := by
  unfold rkimageStoreImage
  split
  · rfl
  split
  · split <;> rfl
  split
  · split <;> rfl
  split
  · rfl
  simp only
  split
  · exact (storeLegacy_priv ptn).trans (checkImage_priv _)
  · exact checkImage_priv _

/-- The flash command does not stream. -/
theorem rkimageStoreImage_appends :
    Appends (fun e => ¬ e.Streams) s.events (rkimageStoreImage board name ptn s).2.events := by
  have hcheck : ∀ pending, Appends (fun e => ¬ e.Streams) s.events
      (checkImage board pending s).2.events := fun pending =>
    (checkImage_appends pending).mono (fun _ h => Event.not_streams_of_not_write h)
  unfold rkimageStoreImage
  split
  · exact (writeParameter_appends ..).mono (fun e h => h.not_streams (by simp))
  split
  · split
    · exact .cons (Event.not_streams_of_not_write not_false)
    · exact .refl
  split
  · split <;> exact .refl
  split
  · exact .refl
  next pending _ =>
  simp only
  split
  · refine (hcheck pending).trans ((storeLegacy_appends ptn).mono ?_)
    rintro e ⟨_, _, hw⟩
    exact hw.not_streams (by simp)
  · exact hcheck pending

theorem fbtHandleFlash_answered (board : Board) (cmdbuf : Mem) (s : State) :
    Answered (fun e => ¬ e.Streams) s (fbtHandleFlash board cmdbuf s) := by
  unfold fbtHandleFlash
  simp only
  split
  · exact .respond _
  split
  · exact .respond _
  generalize hr : rkimageStoreImage board (cstrAt cmdbuf 6)
    ((getDiskPartition s.world (cstrAt cmdbuf 6)).map s.world.parts) s = r
  have hpriv : r.2.priv = s.priv := hr ▸ rkimageStoreImage_priv _ _
  obtain ⟨hunlocked, hrequest, hsize, hevents, hpending⟩ : Answered (fun e => ¬ e.Streams) s r.2 :=
    ⟨by rw [hpriv], by rw [hpriv], by rw [hpriv], hr ▸ rkimageStoreImage_appends _ _, by rw [hpriv]⟩
  split <;> exact ⟨hunlocked, hrequest, hsize, hevents, hpending⟩

theorem fbtHandleDownload_effect : CommandEffect board cmdbuf s (fbtHandleDownload cmdbuf s).2 := by
  unfold fbtHandleDownload
  simp only
  split
  · exact Answered.effect ⟨rfl, rfl, rfl, .refl, rfl⟩
  split
  · exact Answered.effect ⟨rfl, rfl, rfl, .refl, rfl⟩
  split
  · exact Answered.effect ⟨rfl, rfl, rfl, .refl, rfl⟩
  split
  · exact Answered.effect ⟨rfl, rfl, rfl, .refl, rfl⟩
  · exact ⟨.kept (.inl rfl) (.inl rfl), .inr ⟨rfl, rfl⟩, .refl, fun _ _ => rfl⟩

/-- Only "oem unlock" makes a request, and only "oem unlock_accept" of a request unlocks. -/
theorem runCommand_effect (board : Board) (now : Nat) (cmdbuf : Mem) (s : State) :
    CommandEffect board cmdbuf s (runCommand board now cmdbuf s).2 := by
  -- the answer "FAIL" that a command starts with is no part of the effect
  have hrespond : ∀ s', CommandEffect board cmdbuf (s.respond (ascii "FAIL")) s' →
      CommandEffect board cmdbuf s s' := by
    rintro s' ⟨hlock, hsize, hevents, hpending⟩
    refine ⟨?_, hsize, hevents, hpending⟩
    cases hlock with
    | kept hunlocked hpending => exact .kept hunlocked hpending
    | requested hcmd hunlocked => exact .requested hcmd hunlocked
    | accepted hcmd hrequest hpending hstatus hevents =>
      rw [State.respond, eraseUserdata_priv] at hstatus hevents
      exact .accepted hcmd hrequest hpending hstatus hevents
  unfold runCommand
  refine hrespond _ ?_
  split
  · next hgetvar => exact (fbtHandleGetvar_readOnly board cmdbuf _).effect hgetvar
  · next hoem => exact fbtHandleOem_effect now hoem
  · exact (fbtHandleErase_answered 6).effect
  · next hflash =>
    obtain ⟨hunlocked, hrequest, hsize, hevents, -⟩ := fbtHandleFlash_answered board cmdbuf
      (s.respond (ascii "FAIL"))
    exact ⟨.kept (.inl hunlocked) (.inl hrequest), .inl hsize,
      hevents.mono (fun _ h => ⟨h, fun _ => hflash⟩), fun hne => absurd hflash hne⟩
  · exact (fbtHandleReboot_answered _).effect
  · exact Answered.effect ⟨rfl, rfl, rfl, .refl, rfl⟩
  · exact fbtHandleBoot_answered.effect
  · exact fbtHandleDownload_effect
  · exact Answered.effect ⟨rfl, rfl, rfl, .refl, rfl⟩

end CommandEffect

/-! ## Iterations -/

variable {board : Board} {s : State}

/-- The request of an unlock expires or stays; the lock is not touched. -/
theorem expireUnlock_lock {s' : State} (now : Nat)
    (h : LockEffect board cmdbuf s s') : LockEffect board cmdbuf s (expireUnlock now s') := by
  unfold expireUnlock
  split
  · cases h with
    | kept hunlocked _ => exact .kept hunlocked (.inr rfl)
    | requested hcmd hunlocked => exact .requested hcmd hunlocked
    | accepted hcmd hrequest _ hstatus hevents => exact .accepted hcmd hrequest rfl hstatus hevents
  · exact h

/-- An iteration without a command leaves the lock alone. -/
def LockKept (s s' : State) : Prop :=
  s'.priv.unlocked = s.priv.unlocked ∧
    (s'.priv.unlockPendingStartTime = s.priv.unlockPendingStartTime ∨
      s'.priv.unlockPendingStartTime = 0)

theorem expireUnlock_lockKept (now : Nat) (s : State) : LockKept s (expireUnlock now s) := by
  unfold expireUnlock
  split
  · exact ⟨rfl, .inr rfl⟩
  · exact ⟨rfl, .inl rfl⟩

theorem rxData_lock (p : Ptr) (length : Nat) (s : State) :
    (rxData p length s).2.priv.unlocked = s.priv.unlocked ∧
      (rxData p length s).2.priv.unlockPendingStartTime = s.priv.unlockPendingStartTime := by
  obtain ⟨-, -, -, -, -, hlock⟩ :=
    (rxPacket_streamed p (min length s.priv.transferBufferSize) s).request.fields
  unfold rxData rxFinish
  simp only
  split
  · exact hlock
  · split <;> exact hlock

theorem State.MemOnly.lockEffect {s₁ s₂ s₃ : State}
    (h : State.MemOnly s s₁) (h' : State.MemOnly s₂ s₃) (heffect : LockEffect board cmdbuf s₁ s₂) :
    LockEffect board cmdbuf s s₃ := by
  have herase : (eraseUserdata board s₁).1 = (eraseUserdata board s).1 ∧
      (eraseUserdata board s₁).2.events = (eraseUserdata board s).2.events := by
    have hio : s₁.io = s.io := by rw [State.io, h.dev, h.events]; rfl
    unfold eraseUserdata
    rw [h.getDiskPartition, h.parts, hio]
    split
    · exact ⟨rfl, h.events⟩
    · exact ⟨rfl, rfl⟩
  cases heffect with
  | kept hunlocked hpending =>
    rw [← h'.priv, h.priv] at hunlocked hpending
    exact .kept hunlocked hpending
  | requested hcmd hunlocked =>
    rw [← h'.priv, h.priv] at hunlocked
    exact .requested hcmd hunlocked
  | accepted hcmd hrequest hpending hstatus hevents =>
    rw [h.priv] at hrequest
    rw [← h'.priv] at hpending
    rw [herase.1] at hstatus
    rw [herase.2, ← h'.events] at hevents
    exact .accepted hcmd hrequest hpending hstatus hevents

/-- What an iteration does to the lock: nothing, or what its command does. -/
theorem doFastboot_lock (board : Board) (s : State) (t : Tick) :
    (commandRead s t = none ∧ LockKept s (doFastboot board s t)) ∨
      ∃ cmdbuf ∈ commandRead s t, LockEffect board cmdbuf s (doFastboot board s t) := by
  have hiter := doFastboot_iteration board s t
  generalize doFastboot board s t = s' at hiter ⊢
  cases hiter with
  | halted _ hcmd => exact .inl ⟨hcmd, rfl, .inl rfl⟩
  | idle s₁ hmem hcmd =>
    have hexpire := expireUnlock_lockKept t.now s₁
    rw [LockKept, hmem.priv] at hexpire
    exact .inl ⟨hcmd, hexpire⟩
  | data p length s₁ s₂ hmem _ hcmd _ hrest =>
    have hexpire := expireUnlock_lockKept t.now s₂
    rw [LockKept, hrest.priv, (rxData_lock p length s₁).1, (rxData_lock p length s₁).2,
      hmem.priv] at hexpire
    exact .inl ⟨hcmd, hexpire⟩
  | command cmdbuf s₁ s₂ hmem _ hcmd _ hrest =>
    exact .inr ⟨cmdbuf, hcmd, expireUnlock_lock t.now
      (hmem.lockEffect hrest (runCommand_effect board t.now cmdbuf s₁).lock)⟩

/-- An iteration that does not read "oem unlock" makes no request. -/
theorem doFastboot_pending {t : Tick}
    (h : (doFastboot board s t).priv.unlockPendingStartTime ≠ 0) :
    s.priv.unlockPendingStartTime ≠ 0 ∨ ∃ a ∈ commandRead s t, IsOem a "unlock" := by
  have hkept : (doFastboot board s t).priv.unlockPendingStartTime = s.priv.unlockPendingStartTime ∨
      (doFastboot board s t).priv.unlockPendingStartTime = 0 →
      s.priv.unlockPendingStartTime ≠ 0 := by
    omega
  rcases doFastboot_lock board s t with ⟨-, -, hpending⟩ | ⟨cmdbuf, hcmd, heffect⟩
  · omega
  cases heffect with
  | kept _ hpending => exact .inl (hkept hpending)
  | requested hoem _ => exact .inr ⟨cmdbuf, hcmd, hoem⟩
  | accepted _ _ hpending _ _ => exact absurd hpending h

end Fastboot
