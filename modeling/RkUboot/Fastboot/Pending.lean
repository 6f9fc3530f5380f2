import RkUboot.Fastboot.VerifiedFlash

set_option autoImplicit false

/-! # The pending partition at a flash command

The legacy part of `rkimage_store_image` compares `priv.pending_ptn->name` with the names of the
verified partitions; unlike the part for streamed downloads it does not ask whether there is a
pending partition. Whether there is one depends on the commands read before: `pendingTrace` lists
what they set it to, and the last entry is what counts. -/

namespace Fastboot

/-! ## What a command does to `pending_ptn` -/

/-- The command calls `getvar_partition_type`. -/
def QueriesType (cmdbuf : Mem) : Prop :=
  commandOf cmdbuf = .getvar ∧
    (cstrAt cmdbuf 7 = ascii "all" ∨ startsWith cmdbuf 7 "partition-type:")
  deriving Decidable

/-- What the command sets `pending_ptn` to, if it sets it: a flash command clears it, a query of the
    type of a partition makes it the partition of that name, if there is one. -/
def pendingSet (w : World) (cmdbuf : Mem) : Option (Option Nat) :=
  if commandOf cmdbuf = .flash then some none
  else if QueriesType cmdbuf then some (getDiskPartition w (cstrAt cmdbuf 22))
  else none

section Handlers

variable {s : State} (cmdbuf : Mem)

variable (board : Board) (args : Nat)

@[simp] theorem respond_pendingPtn (text : List UInt8) : (s.respond text).priv.pendingPtn = s.priv.pendingPtn := rfl

theorem getvarPartitionType_pendingPtn : (getvarPartitionType cmdbuf args s).2.priv.pendingPtn
      = getDiskPartition s.world (cstrAt cmdbuf (args + 15)) := by
  unfold getvarPartitionType
  simp only
  cases getDiskPartition s.world (cstrAt cmdbuf (args + 15)) <;> rfl

theorem const_world (name : String) (value : State → List UInt8) :
    ((GetvarEntry.const name value).getvarFunc cmdbuf args s).2.world = s.world := rfl

/-- "getvar:all" calls every entry, so it queries a type as well. -/
theorem foldl_getvar_pendingPtn :
    ((getvarTable board).foldl (fun s e => (e.getvarFunc cmdbuf args s).2) s).priv.pendingPtn
      = getDiskPartition s.world (cstrAt cmdbuf (args + 15)) := by
  simp only [getvarTable, List.foldl_cons, List.foldl_nil]
  rw [(getvarChecksum_readOnly (p := True) ..).pendingPtn trivial, getvarPartitionOffset,
    (getvarPartition_readOnly (p := True) ..).pendingPtn trivial, getvarPartitionSize,
    (getvarPartition_readOnly (p := True) ..).pendingPtn trivial, getvarPartitionType_pendingPtn]
  simp only [const_world]

/-- The first two characters of a text. -/
theorem cstrAt_chars {off : Nat} (hoff : off < 511) {c d : UInt8} {text : List UInt8}
    (h : cstrAt cmdbuf off = c :: d :: text) : cmdbuf off = c ∧ cmdbuf (off + 1) = d := by
  obtain ⟨fuel, hfuel⟩ : ∃ fuel, 512 - off = fuel + 2 := ⟨510 - off, by omega⟩
  rw [cstrAt, hfuel, Mem.cstr] at h
  split at h
  · cases h
  · obtain ⟨hc, h⟩ := List.cons.inj h
    rw [Mem.cstr] at h
    split at h
    · cases h
    · exact ⟨hc, (List.cons.inj h).1⟩

/-- A query of a type matches no entry before its own. -/
theorem find_partitionType (h : startsWith cmdbuf 7 "partition-type:") :
    (getvarTable board).find? (fun e => e.Matches cmdbuf 7)
      = some ⟨"partition-type:", false, getvarPartitionType⟩ := by
  have hp : cmdbuf 7 = 112 ∧ cmdbuf 8 = 97 := by
    have h0 := congrArg (fun l => (l[0]?, l[1]?)) h
    simpa [Mem.bytes, ascii] using h0
  have hskip : ∀ (name : String) (value : State → List UInt8),
      (∃ c d text, ascii name = c :: d :: text ∧ (c ≠ 112 ∨ d ≠ 97)) →
      (GetvarEntry.const name value).Matches cmdbuf 7 = false := by
    rintro name value ⟨c, d, text, hname, hcd⟩
    refine decide_eq_false (fun heq => ?_)
    obtain ⟨hc, hd⟩ := cstrAt_chars cmdbuf (by decide) (heq.trans hname)
    rcases hcd with hne | hne
    · exact hne (hc.symm.trans hp.1)
    · exact hne (hd.symm.trans hp.2)
  have hown : (GetvarEntry.mk "partition-type:" false getvarPartitionType).Matches cmdbuf 7 = true :=
    decide_eq_true h
  simp only [getvarTable, List.find?_cons, hown,
    hskip "version" _ ⟨118, 101, _, rfl, .inl (by decide)⟩,
    hskip "version-baseband" _ ⟨118, 101, _, rfl, .inl (by decide)⟩,
    hskip "version-bootloader" _ ⟨118, 101, _, rfl, .inl (by decide)⟩,
    hskip "unlocked" _ ⟨117, 110, _, rfl, .inl (by decide)⟩,
    hskip "secure" _ ⟨115, 101, _, rfl, .inl (by decide)⟩,
    hskip "product" _ ⟨112, 114, _, rfl, .inr (by decide)⟩,
    hskip "serialno" _ ⟨115, 101, _, rfl, .inl (by decide)⟩]

theorem fbtHandleGetvar_pendingPtn : (fbtHandleGetvar board cmdbuf s).priv.pendingPtn
      = if cstrAt cmdbuf 7 = ascii "all" ∨ startsWith cmdbuf 7 "partition-type:" then
          getDiskPartition s.world (cstrAt cmdbuf 22) else s.priv.pendingPtn := by
  by_cases hall : cstrAt cmdbuf 7 = ascii "all"
  · rw [fbtHandleGetvar, if_pos hall, if_pos (.inl hall)]
    simp only [respond_pendingPtn, foldl_getvar_pendingPtn]
  by_cases htype : startsWith cmdbuf 7 "partition-type:"
  · rw [fbtHandleGetvar, if_neg hall, if_pos (.inr htype), find_partitionType cmdbuf board htype]
    simp only
    split
    · exact getvarPartitionType_pendingPtn cmdbuf 7
    · rw [respond_pendingPtn]
      exact getvarPartitionType_pendingPtn cmdbuf 7
  · have hne : ¬ (cstrAt cmdbuf 7 = ascii "all" ∨ startsWith cmdbuf 7 "partition-type:") := by tauto
    rw [if_neg hne, (fbtHandleGetvar_readOnly board cmdbuf s).pendingPtn hne]

theorem runCommand_pendingPtn (now : Nat) : (runCommand board now cmdbuf s).2.priv.pendingPtn
      = (pendingSet s.world cmdbuf).getD s.priv.pendingPtn := by
  by_cases hflash : commandOf cmdbuf = .flash
  · rw [runCommand, pendingSet, if_pos hflash, hflash]
    rfl
  rw [pendingSet, if_neg hflash]
  by_cases hgetvar : commandOf cmdbuf = .getvar
  · rw [runCommand, hgetvar]
    refine (fbtHandleGetvar_pendingPtn cmdbuf board).trans ?_
    simp only [QueriesType, hgetvar, true_and]
    split <;> rfl
  · rw [if_neg (fun h => hgetvar h.1)]
    exact (runCommand_effect board now cmdbuf s).pendingPtn hflash hgetvar

end Handlers

/-! ## Iterations and runs -/

variable (board : Board)

theorem expireUnlock_pendingPtn (now : Nat) (s : State) :
    (expireUnlock now s).priv.pendingPtn = s.priv.pendingPtn := by
  unfold expireUnlock
  split <;> rfl

theorem rxData_pendingPtn (p : Ptr) (length : Nat) (s : State) :
    (rxData p length s).2.priv.pendingPtn = s.priv.pendingPtn := by
  have hpending :=
    (rxPacket_streamed p (min length s.priv.transferBufferSize) s).request.fields.1
  unfold rxData rxFinish
  simp only
  split
  · exact hpending
  · split <;> exact hpending

/-- An iteration sets the pending partition if the command it reads does, and keeps it otherwise. -/
theorem doFastboot_pendingPtn (s : State) (t : Tick) : (doFastboot board s t).priv.pendingPtn
      = ((commandRead s t).bind (pendingSet s.world)).getD s.priv.pendingPtn := by
  have hiter := doFastboot_iteration board s t
  generalize doFastboot board s t = s' at hiter ⊢
  cases hiter with
  | halted _ hcmd => rw [hcmd]; rfl
  | idle s₁ hmem hcmd =>
    rw [hcmd, expireUnlock_pendingPtn, hmem.priv]
    rfl
  | data p length s₁ s₂ hmem _ hcmd _ hrest =>
    rw [hcmd, expireUnlock_pendingPtn, hrest.priv, rxData_pendingPtn, hmem.priv]
    rfl
  | command cmdbuf s₁ s₂ hmem _ hcmd _ hrest =>
    have hset : pendingSet s₁.world cmdbuf = pendingSet s.world cmdbuf := by
      unfold pendingSet
      rw [hmem.getDiskPartition]
    rw [hcmd, expireUnlock_pendingPtn, hrest.priv, runCommand_pendingPtn, hset, hmem.priv]
    rfl

/-- What the commands of a run set the pending partition to, in order. -/
def pendingTrace (board : Board) : Session → List Tick → List (Option Nat)
  | _, [] => []
  | x, t :: ts =>
    ((commandRead x.st t).bind (pendingSet x.st.world)).toList ++ pendingTrace board (x.step board t) ts

/-- The pending partition after a run is what its last command that sets it set it to. -/
theorem foldl_step_pendingPtn (x : Session) (ts : List Tick) :
    (ts.foldl (Session.step board) x).st.priv.pendingPtn
      = ((pendingTrace board x ts).getLast?).getD x.st.priv.pendingPtn := by
  induction ts generalizing x with
  | nil => rfl
  | cons t ts ih =>
    have hstep : (x.step board t).st.priv.pendingPtn
        = ((commandRead x.st t).bind (pendingSet x.st.world)).getD x.st.priv.pendingPtn :=
      doFastboot_pendingPtn board x.st t
    rw [List.foldl_cons, ih, pendingTrace, List.getLast?_append, hstep]
    cases (pendingTrace board (x.step board t) ts).getLast? with
    | some last => rfl
    | none => cases (commandRead x.st t).bind (pendingSet x.st.world) <;> rfl

/-! ## Flash commands -/

/-- The iteration runs a flash command whose image is stored by way of a pending partition that is
    not there. -/
def DerefsNull (board : Board) (s : State) (t : Tick) : Prop :=
  ∃ cmdbuf ∈ commandRead s t, commandOf cmdbuf = .flash ∧
    s.priv.unlocked = true ∧ s.priv.dBytes ≠ 0 ∧
    (rkimageStoreImage board (cstrAt cmdbuf 6)
      ((getDiskPartition s.world (cstrAt cmdbuf 6)).map s.world.parts) s).1 = .fault
  deriving Decidable

/-- The iteration runs a flash command that gets to the legacy branches of
    `rkimage_store_image`. -/
def FlashesLegacy (s : State) (t : Tick) : Prop :=
  ∃ cmdbuf ∈ commandRead s t, commandOf cmdbuf = .flash ∧ StoresLegacy s (cstrAt cmdbuf 6)

/-- Of the commands of the run that set the pending partition, the last is a query that found its
    partition. -/
def QueryStands (board : Board) (x : Session) (ts : List Tick) : Prop :=
  ∃ i, (pendingTrace board x ts).getLast? = some (some i)

theorem Outcome.ofBool_ne_fault (b : Bool) : Outcome.ofBool b ≠ .fault := by
  cases b <;> decide

theorem storeLegacy_ne_fault (ptn : Option DiskPartition) (s : State) :
    (storeLegacy ptn s).1 ≠ .fault := by
  unfold storeLegacy
  split
  · exact nofun
  · exact Outcome.ofBool_ne_fault _

/-- The legacy branches read through a null pointer exactly if they are reached without a pending
    partition, and nothing else does. -/
theorem rkimageStoreImage_fault_iff (name : List UInt8) (ptn : Option DiskPartition) (s : State) :
    (rkimageStoreImage board name ptn s).1 = .fault ↔
      s.priv.dLegacy = true ∧ name ≠ parameterName ∧ name ≠ loaderName ∧
        s.priv.pendingPtn = none := by
  have hpending : s.pending = none ↔ s.priv.pendingPtn = none := Option.map_eq_none_iff
  unfold rkimageStoreImage
  by_cases hparameter : name = parameterName
  · rw [if_pos hparameter]
    exact iff_of_false (Outcome.ofBool_ne_fault _) (fun h => h.2.1 hparameter)
  rw [if_neg hparameter]
  by_cases hloader : name = loaderName
  · rw [if_pos hloader]
    refine iff_of_false ?_ (fun h => h.2.2.1 hloader)
    split
    · exact Outcome.ofBool_ne_fault _
    · exact nofun
  rw [if_neg hloader]
  by_cases hlegacy : s.priv.dLegacy = false
  · rw [if_pos hlegacy]
    refine iff_of_false ?_ (fun h => Bool.false_ne_true (hlegacy.symm.trans h.1))
    split
    · exact nofun
    · exact Outcome.ofBool_ne_fault _
  rw [if_neg hlegacy]
  rw [Bool.not_eq_false] at hlegacy
  cases hp : s.pending with
  | none => exact iff_of_true rfl ⟨hlegacy, hparameter, hloader, hpending.1 hp⟩
  | some pending =>
    refine iff_of_false ?_ (fun h => ?_)
    · simp only
      split
      · exact storeLegacy_ne_fault ptn _
      · exact nofun
    · rw [hpending.2 h.2.2.2] at hp
      exact absurd hp nofun

theorem derefsNull_iff (s : State) (t : Tick) :
    DerefsNull board s t ↔ FlashesLegacy s t ∧ s.priv.pendingPtn = none := by
  unfold DerefsNull FlashesLegacy StoresLegacy
  simp only [rkimageStoreImage_fault_iff]
  constructor
  · rintro ⟨cmdbuf, hcmd, hflash, hunlocked, hbytes, hlegacy, hparameter, hloader, hnone⟩
    exact ⟨⟨cmdbuf, hcmd, hflash, hunlocked, hbytes, hlegacy, hparameter, hloader⟩, hnone⟩
  · rintro ⟨⟨cmdbuf, hcmd, hflash, hunlocked, hbytes, hlegacy, hparameter, hloader⟩, hnone⟩
    exact ⟨cmdbuf, hcmd, hflash, hunlocked, hbytes, hlegacy, hparameter, hloader, hnone⟩

/-- From the start of a session there is a pending partition exactly if a query stands. -/
theorem queryStands_iff (unlocked : Bool) (w : World) (ts : List Tick) :
    QueryStands board (Session.boot unlocked w) ts ↔
      (ts.foldl (Session.step board) (Session.boot unlocked w)).st.priv.pendingPtn ≠ none := by
  rw [foldl_step_pendingPtn, QueryStands]
  have hstart : (Session.boot unlocked w).st.priv.pendingPtn = none := rfl
  rw [hstart]
  cases (pendingTrace board (Session.boot unlocked w) ts).getLast? with
  | none => exact iff_of_false (fun ⟨_, h⟩ => absurd h nofun) (fun h => h rfl)
  | some last =>
    cases last with
    | none => exact iff_of_false (fun ⟨_, h⟩ => absurd h nofun) (fun h => h rfl)
    | some i => exact iff_of_true ⟨i, rfl⟩ nofun

/-- **In a run from the start of a session no flash command reads through a null `pending_ptn`
    exactly if at each one that gets to the legacy branches a query stands: of the flash commands
    and the queries of partition types before it, the last is a query that found its
    partition.** -/
theorem flash_pending_exists_iff (board : Board) (unlocked : Bool) (w : World) (ts : List Tick) :
    (∀ ts₁ t, ts₁ ++ [t] <+: ts →
        ¬ DerefsNull board (ts₁.foldl (Session.step board) (Session.boot unlocked w)).st t) ↔
      ∀ ts₁ t, ts₁ ++ [t] <+: ts →
        FlashesLegacy (ts₁.foldl (Session.step board) (Session.boot unlocked w)).st t →
        QueryStands board (Session.boot unlocked w) ts₁ := by
  refine forall_congr' fun ts₁ => forall_congr' fun t => imp_congr_right fun _ => ?_
  rw [derefsNull_iff, queryStands_iff, not_and]

/-- The host downloads an image without asking for the type of a partition. -/
def flashUnasked : List Tick := [say "download:00000041", sampleImage, say "flash:boot"]

/-- The image is a legacy one since no name is pending, and the flash command reads the name of a
    partition through a null pointer. -/
theorem flash_unasked_derefs_null :
    DerefsNull (sampleBoard 170)
        (([say "download:00000041", sampleImage].foldl (Session.step (sampleBoard 170))
          (Session.start sampleWorld)).st) (say "flash:boot") ∧
      (flashUnasked.foldl (Session.step (sampleBoard 170))
        (Session.start sampleWorld)).st.fault = true := by
  decide +kernel

end Fastboot
