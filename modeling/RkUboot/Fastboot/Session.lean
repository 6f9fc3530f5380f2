import RkUboot.Lib.Run
import RkUboot.Fastboot.Commands

set_option autoImplicit false

/-! # Sessions

A session is a run of iterations of the loop in `do_fastboot`, with the events of each iteration kept
apart. `Iteration` says once what an iteration can do: nothing, process a packet of data, or run a
command, and between these only the memory of the buffers changes. -/

namespace Fastboot

/-- The gadget with the events of each packet so far. -/
structure Session where
  st : State
  history : List (List Event)

namespace Session

/-- One iteration of the loop; its events go to the history. -/
def step (board : Board) (x : Session) (t : Tick) : Session :=
  let s := doFastboot board x.st t
  ⟨{ s with events := [] }, s.events :: x.history⟩

/-- An unlocked device. -/
def start (w : World) : Session := ⟨Fastboot.start true w, []⟩

/-- A device whose stored lock state is `unlocked`. -/
def boot (unlocked : Bool) (w : World) : Session := ⟨Fastboot.start unlocked w, []⟩

/-- Between iterations there are no events that are not in the history. -/
theorem foldl_step_events (board : Board) (unlocked : Bool) (w : World) (ts : List Tick) :
    (ts.foldl (step board) (boot unlocked w)).st.events = [] := by
  induction ts using List.reverseRecOn with
  | nil => rfl
  | append_singleton ts t _ => rw [List.foldl_append, List.foldl_cons, List.foldl_nil]; rfl

end Session

/-- The command that the iteration reads, if it reads one. -/
def commandRead (s : State) (t : Tick) : Option Mem :=
  if s.halted then none
  else
    match t.packet.bind (fun packet => deliver packet s) with
    | none => none
    | some (p, length, s) =>
      if length = 0 ∨ s.priv.dSize ≠ 0 then none else some (commandAt p length s)

/-- The data that the iteration reads, if it reads some: where it landed, its length, and the state
    then. -/
def dataRead (s : State) (t : Tick) : Option (Ptr × Nat × State) :=
  if s.halted then none
  else
    match t.packet.bind (fun packet => deliver packet s) with
    | none => none
    | some (p, length, s) => if length = 0 ∨ s.priv.dSize = 0 then none else some (p, length, s)

/-- The commands a run reads, in order. -/
def commandTrace (board : Board) : Session → List Tick → List Mem
  | _, [] => []
  | x, t :: ts => (commandRead x.st t).toList ++ commandTrace board (x.step board t) ts

theorem commandTrace_append (board : Board) (x : Session) (ts : List Tick) (t : Tick) :
    commandTrace board x (ts ++ [t])
      = commandTrace board x ts ++ (commandRead (ts.foldl (Session.step board) x).st t).toList := by
  induction ts generalizing x with
  | nil => exact List.append_nil _
  | cons t' ts ih =>
    rw [List.cons_append, commandTrace, ih, commandTrace, List.append_assoc, List.foldl_cons]

/-! ## What an iteration can do -/

/-- The states differ in the memory of the buffers and in the reads posted only. -/
structure State.MemOnly (s s' : State) : Prop where
  priv : s'.priv = s.priv
  dev : s'.world.dev = s.world.dev
  parts : s'.world.parts = s.world.parts
  numParts : s'.world.numParts = s.world.numParts
  events : s'.events = s.events

section MemOnly

variable {s s' s'' : State}

theorem State.MemOnly.refl : State.MemOnly s s := ⟨rfl, rfl, rfl, rfl, rfl⟩

theorem State.MemOnly.trans (h : State.MemOnly s s') (h' : State.MemOnly s' s'') :
    State.MemOnly s s'' :=
  ⟨h'.priv.trans h.priv, h'.dev.trans h.dev, h'.parts.trans h.parts, h'.numParts.trans h.numParts,
    h'.events.trans h.events⟩

theorem setMem_memOnly (b : Buffer) (m : Mem) : State.MemOnly s (s.setMem b m) := by
  cases b with
  | rx => exact ⟨rfl, rfl, rfl, rfl, rfl⟩
  | transfer => exact ⟨rfl, rfl, rfl, rfl, rfl⟩

theorem fbtReadBulkEp_memOnly (n : Nat) (p : Ptr) : State.MemOnly s (fbtReadBulkEp n p s) :=
  ⟨rfl, rfl, rfl, rfl, rfl⟩

theorem clearGiveback_memOnly : State.MemOnly s (clearGiveback s) := by
  unfold clearGiveback
  split
  · exact .refl
  · exact setMem_memOnly _ _

theorem deliver_memOnly {packet : List UInt8} {p : Ptr} {length : Nat}
    (h : deliver packet s = some (p, length, s')) : State.MemOnly s s' := by
  unfold deliver at h
  split at h
  · cases h
  · rw [Option.some.injEq, Prod.mk.injEq, Prod.mk.injEq] at h
    obtain ⟨-, -, rfl⟩ := h
    exact (setMem_memOnly _ _).trans ⟨rfl, rfl, rfl, rfl, rfl⟩

/-- The partitions are found where they were. -/
theorem State.MemOnly.getDiskPartition (h : State.MemOnly s s') (name : List UInt8) :
    getDiskPartition s'.world name = getDiskPartition s.world name := by
  rw [Fastboot.getDiskPartition, h.parts, h.numParts]
  rfl

theorem State.MemOnly.pending (h : State.MemOnly s s') : s'.pending = s.pending := by
  rw [State.pending, h.priv, h.parts]
  rfl

end MemOnly

/-- What one iteration of the loop can do. -/
inductive Iteration (board : Board) (s : State) (t : Tick) : State → Prop
  | halted (h : s.halted = true) (hcmd : commandRead s t = none) (hdata : dataRead s t = none) :
      Iteration board s t s
  /-- No packet arrives, or an empty one. -/
  | idle (s' : State) (hmem : State.MemOnly s s') (hcmd : commandRead s t = none)
      (hdata : dataRead s t = none) : Iteration board s t (expireUnlock t.now s')
  | data (p : Ptr) (length : Nat) (s₁ s₂ : State) (hmem : State.MemOnly s s₁)
      (hsize : s.priv.dSize ≠ 0) (hcmd : commandRead s t = none)
      (hdata : dataRead s t = some (p, length, s₁))
      (hrest : State.MemOnly (rxData p length s₁).2 s₂) :
      Iteration board s t (expireUnlock t.now s₂)
  | command (cmdbuf : Mem) (s₁ s₂ : State) (hmem : State.MemOnly s s₁) (hsize : s.priv.dSize = 0)
      (hcmd : commandRead s t = some cmdbuf) (hdata : dataRead s t = none)
      (hrest : State.MemOnly (runCommand board t.now cmdbuf s₁).2 s₂) :
      Iteration board s t (expireUnlock t.now s₂)

/-- What `fbt_handle_rx` does once a packet is processed. -/
theorem fbtHandleRx_memOnly (board : Board) (now : Nat) (p : Ptr) {length : Nat} (s : State)
    (h : length ≠ 0) :
    State.MemOnly (fbtRxProcess board now p length s).2 (fbtHandleRx board now p length s) := by
  unfold fbtHandleRx
  rw [if_neg h]
  simp only
  split
  · exact clearGiveback_memOnly.trans (fbtReadBulkEp_memOnly _ _)
  · exact .refl

theorem doFastboot_iteration (board : Board) (s : State) (t : Tick) :
    Iteration board s t (doFastboot board s t) := by
  unfold doFastboot
  by_cases hhalt : s.halted = true
  · rw [if_pos hhalt]
    exact .halted hhalt (by rw [commandRead, if_pos hhalt]) (by rw [dataRead, if_pos hhalt])
  rw [if_neg hhalt]
  cases hdel : t.packet.bind (fun packet => deliver packet s) with
  | none =>
    exact .idle s .refl (by rw [commandRead, if_neg hhalt, hdel])
      (by rw [dataRead, if_neg hhalt, hdel])
  | some r =>
    obtain ⟨p, length, s₁⟩ := r
    obtain ⟨packet, -, hdeliver⟩ := Option.bind_eq_some_iff.1 hdel
    have hmem := deliver_memOnly hdeliver
    have hcmd : commandRead s t
        = if length = 0 ∨ s₁.priv.dSize ≠ 0 then none else some (commandAt p length s₁) := by
      rw [commandRead, if_neg hhalt, hdel]
    have hdata : dataRead s t
        = if length = 0 ∨ s₁.priv.dSize = 0 then none else some (p, length, s₁) := by
      rw [dataRead, if_neg hhalt, hdel]
    simp only
    by_cases hlen : length = 0
    · rw [if_pos (.inl hlen)] at hcmd hdata
      rw [fbtHandleRx, if_pos hlen]
      exact .idle s₁ hmem hcmd hdata
    have hrest := fbtHandleRx_memOnly board t.now p s₁ hlen
    unfold fbtRxProcess at hrest
    by_cases hsize : s₁.priv.dSize = 0
    · rw [if_neg (not_not.2 hsize)] at hrest
      rw [if_neg (by simp [hlen, hsize])] at hcmd
      rw [if_pos (.inr hsize)] at hdata
      exact .command _ _ _ (hmem.trans (setMem_memOnly _ _)) (by rw [← hmem.priv, hsize]) hcmd
        hdata hrest
    · rw [if_pos hsize] at hrest
      rw [if_pos (.inr hsize)] at hcmd
      rw [if_neg (by simp [hlen, hsize])] at hdata
      exact .data p length s₁ _ hmem (by rw [← hmem.priv]; exact hsize) hcmd hdata hrest

/-! ## The data part -/

/-- What a packet of data does to the interface and the storage: nothing in a legacy download. -/
def streamPacket (p : Ptr) (length : Nat) (s : State) : Interface × Io :=
  if s.priv.dLegacy then (s.priv, s.io)
  else rkimageHandleDownload s.world.parts (s.mem p.base) p.off length s.priv s.io

/-- Besides that a packet asks for the next one. -/
theorem rxPacket_outcome (p : Ptr) (length : Nat) (s : State) :
    (rxPacket p length s).priv = (streamPacket p length s).1 ∧
      (rxPacket p length s).io = (streamPacket p length s).2 ∧
      (rxPacket p length s).world.parts = s.world.parts := by
  unfold rxPacket streamPacket
  by_cases hmore : (s.priv.dBytes + length) % 2 ^ 64 < s.priv.dSize
  · rw [if_pos hmore]
    cases hlegacy : s.priv.dLegacy with
    | true => simp [requestData, fbtReadBulkEp, hlegacy, State.io]
    | false =>
      simp [requestData, fbtReadBulkEp, hlegacy, boardFbtHandleDownload, State.setIo, State.io,
        State.mem]
  · rw [if_neg hmore]
    cases hlegacy : s.priv.dLegacy with
    | true => simp [hlegacy]
    | false => simp [hlegacy, boardFbtHandleDownload, State.setIo, State.io, State.mem]

theorem rxPacket_streamed (p : Ptr) (length : Nat) (s : State) :
    Streamed s.priv s.io ((rxPacket p length s).priv, (rxPacket p length s).io) := by
  obtain ⟨hpriv, hio, -⟩ := rxPacket_outcome p length s
  rw [hpriv, hio, streamPacket]
  split
  · exact .progress rfl
  · exact rkimageHandleDownload_streamed ..

theorem rxFinish_events (length : Nat) (s : State) : (rxFinish length s).2.events = s.events := by
  unfold rxFinish
  split
  · rfl
  · split <;> rfl

/-- Data adds writes of a streamed download to the events, and nothing else. -/
theorem rxData_streams (p : Ptr) (length : Nat) (s : State) :
    Appends Event.Streams s.events (rxData p length s).2.events := by
  unfold rxData
  rw [rxFinish_events]
  exact (rxPacket_streamed p _ s).events

theorem expireUnlock_events (now : Nat) (s : State) : (expireUnlock now s).events = s.events := by
  unfold expireUnlock
  split <;> rfl

/-! ## A board for the runs on fixed inputs -/

/-- A board whose boot check accepts the images with `magic` in byte 64. The bytes before it are
    cleared in an image of one packet: `fbt_handle_rx` takes its buffer for that of a command. -/
def sampleBoard (magic : UInt8) : Board where
  secureModeVerifyBootImage image := image 64 == magic
  secureModeVerifyUbootImage _ := false
  makeLoaderData _ := false
  rkidbUpdateLoader dev := (false, dev)
  loadDiskPartitions w := w
  runCommand _ w := (0, w)
  bootImage w := w
  boardFbtRunRecoveryWipeData w := w
  saveEnv _ dev := dev
  crc32Rk _ := 0
  erase := none
  secureBootLock := false
  bootloaderVer := []
  versionBootloader := []
  productName := ascii "fastboot"
  serialNo := []

/-- Empty storage with the partitions boot and system. -/
def sampleWorld : World where
  dev := ⟨Mem.zero, []⟩
  parts i := ⟨8192 * (i + 1), 8192, 512, if i = 0 then bootName else ascii "system", ascii "raw"⟩
  numParts := 2
  ram := Mem.zero

/-- A packet with this text. -/
def say (text : String) : Tick := ⟨some (ascii text), 0⟩

end Fastboot
