import RkUboot.Net.Fill
import RkUboot.Lib.Run

set_option autoImplicit false

/-! # Memory safety of the reassembly

A fragment can break the hole list in the buffer: with a length below that of its header, by
reaching into the next hole, by a length that is no multiple of 8, or by ending at the end of the
buffer while more are announced. And when a packet is complete the list is gone, but `total_len` and
the id in the header are not reset, so that one more fragment of that packet takes data for
descriptors. Runs without such fragments stay inside. -/

namespace Net

/-! ## A new packet -/

section Reset

variable {s : Defrag} {p : Packet}

/-- A new packet is one hole, from block 0 on. -/
theorem good_reset (s : Defrag) (p : Packet) : Good (s.reset p) [(0, 65535)] := by
  have hhole : hole (s.reset p).pktBuff 0 = ⟨65535, 0, 0⟩ := by
    have hcopy : hole (s.reset p).pktBuff 0
        = hole (setPrevHole (setNextHole (setLastByte s.pktBuff 0 65535) 0 0) 0 0) 0 :=
      hole_congr fun x hx _ => Mem.copy_apply_out (by unfold holeAddr at hx; omega)
    rw [hcopy, hole_setPrevHole, hole_setNextHole, hole_setLastByte]
    simp
  refine ⟨List.cons_ne_nil _ _, ⟨?_, ?_, ?_, ?_, List.pairwise_singleton _ _⟩, ⟨?_, ?_⟩, rfl⟩
  · simp [holeSlots]
  · simp
  · simp
  · simp
  · show (hole (s.reset p).pktBuff 0).prev = 0 ∧ (hole (s.reset p).pktBuff 0).next = 0 ∧ True
    rw [hhole]
    exact ⟨rfl, rfl, trivial⟩
  · simp only [List.mem_singleton, forall_eq]
    rw [hhole]

theorem reset_ipId (s : Defrag) (p : Packet) : (s.reset p).ipId = p.ipId := by
  unfold Defrag.ipId Defrag.reset
  dsimp only
  rw [Mem.copy_apply_in (by decide) (by decide),
    Mem.copy_apply_in (by decide) (by decide)]
  rfl

theorem not_fresh_reset (s : Defrag) (p : Packet) : ¬ (s.reset p).Fresh p := by
  rintro (h | h)
  · exact absurd h (show (65535 : Nat) ≠ 0 by decide)
  · exact h (reset_ipId s p)

theorem netDefragment_out (hin : ¬ p.InBuffer) : netDefragment s p = some (none, s) := by
  rw [netDefragment, if_pos]
  unfold Packet.InBuffer at hin
  omega

/-- A fragment of a new packet is one for the packet that was reset. -/
theorem netDefragment_fresh (hfresh : s.Fresh p) (hin : p.InBuffer) :
    netDefragment s p = netDefragment (s.reset p) p := by
  have hnot : ¬ (p.stop < 0 ∨ (ipMaxudp : Int) < p.stop) := by
    have := hin.1
    have := hin.2
    omega
  rw [netDefragment, netDefragment, if_neg hnot, if_neg hnot]
  simp only [if_pos hfresh, if_neg (not_fresh_reset s p)]

end Reset

/-! ## The list in the buffer -/

/-- The holes that the buffer describes from block `i` on. -/
def readHoles (m : Mem) : Nat → Nat → List Gap
  | 0, _ => []
  | fuel + 1, i => (i, lastByte m i) :: if nextHole m i = 0 then [] else readHoles m fuel (nextHole m i)

theorem readHoles_eq {m : Mem} (hs : List Gap) (p fuel : Nat) (h : Shape hs) (hne : hs ≠ [])
    (hfuel : hs.length ≤ fuel) (hseg : HoleSeg (hole m) p (indices hs) 0)
    (hlast : ∀ h ∈ hs, (hole m h.1).last = h.2) : readHoles m fuel ((indices hs).headD 0) = hs := by
  induction hs generalizing fuel p with
  | nil => exact absurd rfl hne
  | cons a hs ih =>
    cases fuel with
    | zero => cases hfuel
    | succ fuel =>
      obtain ⟨-, hnext, hrest⟩ := hseg
      have hnext : nextHole m a.1 = (indices hs).headD 0 := hnext
      have hlastByte : lastByte m a.1 = a.2 := hlast a (.head _)
      show readHoles m (fuel + 1) a.1 = a :: hs
      rw [readHoles, hlastByte, hnext]
      refine congrArg (a :: ·) ?_
      cases hs with
      | nil => rfl
      | cons b hs =>
        have hpos := h.pos_of_behind b (.head _)
        rw [if_neg (by show b.1 ≠ 0; omega)]
        exact ih a.1 fuel (h.sublist (List.sublist_cons_self _ _)) nofun (by simpa using hfuel)
          hrest fun c hc => hlast c (.tail _ hc)

/-- The holes of the packet that is being collected. -/
def Defrag.holes (s : Defrag) : List Gap := readHoles s.pktBuff holeSlots s.firstHole

theorem Good.holes_eq {s : Defrag} {hs : List Gap} (h : Good s hs) : s.holes = hs := by
  rw [Defrag.holes, h.first]
  exact readHoles_eq hs 0 holeSlots h.shape h.ne h.shape.length_le h.linked.seg h.linked.last

/-! ## Runs -/

/-- The static variables, and if the packet in the buffer was returned as complete. -/
structure RunState where
  vars : Defrag
  returned : Bool

/-- One call; there is no next state if it reads or writes outside, or does not end. -/
def RunState.step (r : RunState) (p : Packet) : Option RunState :=
  (netDefragment r.vars p).map fun (packet, s) =>
    ⟨s, packet.isSome || r.returned && !decide (p.InBuffer ∧ r.vars.Fresh p)⟩

/-- A fragment that fits in the buffer is gentle to the holes of its packet, and it is not one of
    the packet that was returned last. -/
def RunState.Careful (r : RunState) (p : Packet) : Prop :=
  p.InBuffer → if r.vars.Fresh p then Gentle [(0, 65535)] p else r.returned = false ∧ Gentle r.vars.holes p
  deriving Decidable

/-- There was no packet yet, or it was returned, or its holes are in the buffer. -/
def RunState.Sane (r : RunState) : Prop :=
  r.vars.totalLen = 0 ∨ r.returned = true ∨ ∃ hs, Good r.vars hs

/-- The result of a gentle fragment on a good list. -/
theorem netDefragment_sane {s : Defrag} {hs : List Gap} {p : Packet} (h : Good s hs)
    (hfresh : ¬ s.Fresh p)
    (hin : p.InBuffer) (hgentle : Gentle hs p) :
    ∃ packet s', netDefragment s p = some (packet, s') ∧ (packet = none → ∃ hs', Good s' hs') := by
  obtain ⟨hnone, hsome⟩ := netDefragment_fill h hfresh hin hgentle
  cases hfill : fill hs p with
  | none => exact ⟨none, s, hnone hfill, fun _ => ⟨hs, h⟩⟩
  | some hs' =>
    obtain ⟨i, last, -, -, -, s', hfilled, hval⟩ := hsome hs' hfill
    by_cases hdone : hs' = []
    · rw [if_pos hdone] at hval
      exact ⟨_, _, hval, fun hpacket => absurd hpacket (Option.some_ne_none _)⟩
    · rw [if_neg hdone] at hval
      exact ⟨none, s', hval, fun _ => ⟨hs', hfilled.good hdone⟩⟩

theorem step_sane (r : RunState) (p : Packet) (hsane : r.Sane) (hcareful : r.Careful p) :
    ∃ r', r.step p = some r' ∧ r'.Sane := by
  by_cases hin : p.InBuffer
  · have hcareful := hcareful hin
    by_cases hfresh : r.vars.Fresh p
    · rw [if_pos hfresh] at hcareful
      obtain ⟨packet, s', hval, hgood⟩ := netDefragment_sane (good_reset r.vars p)
        (not_fresh_reset r.vars p) hin hcareful
      refine ⟨_, by rw [RunState.step, netDefragment_fresh hfresh hin, hval]; rfl, ?_⟩
      cases packet with
      | none => exact .inr (.inr (hgood rfl))
      | some len => exact .inr (.inl rfl)
    · rw [if_neg hfresh] at hcareful
      obtain ⟨hnot, hgentle⟩ := hcareful
      have hlist : ∃ hs, Good r.vars hs := by
        rcases hsane with hzero | hreturned | hlist
        · exact absurd (.inl hzero) hfresh
        · exact absurd hreturned (by rw [hnot]; decide)
        · exact hlist
      obtain ⟨hs, hgood⟩ := hlist
      rw [hgood.holes_eq] at hgentle
      obtain ⟨packet, s', hval, hgood'⟩ := netDefragment_sane hgood hfresh hin hgentle
      refine ⟨_, by rw [RunState.step, hval]; rfl, ?_⟩
      cases packet with
      | none => exact .inr (.inr (hgood' rfl))
      | some len => exact .inr (.inl rfl)
  · refine ⟨r, ?_, hsane⟩
    rw [RunState.step, netDefragment_out hin]
    simp [hin]

/-- **Every run of careful fragments stays inside the buffer**, and every walk through the holes
    ends: each call of `__NetDefragment` has a result. -/
theorem netDefragment_run_defined (s : Defrag) (hs : s.totalLen = 0) (ps : List Packet)
    (hrun : Run.AlongExec RunState.step RunState.Careful ⟨s, false⟩ ps) :
    ∃ r, Run.exec RunState.step ⟨s, false⟩ ps = some r := by
  obtain ⟨r, hr, -⟩ := Run.exec_invariant step_sane ps ⟨s, false⟩ (.inl hs) hrun
  exact ⟨r, hr⟩

/-- An IP packet with the given fields. -/
def ipBytes (ipLen ipId ipOff : Nat) (payload : List UInt8) : List UInt8 :=
  [0x45, 0, UInt8.ofNat (ipLen / 256), UInt8.ofNat ipLen, UInt8.ofNat (ipId / 256), UInt8.ofNat ipId,
    UInt8.ofNat (ipOff / 256), UInt8.ofNat ipOff] ++ List.replicate 12 0 ++ payload

/-- The variables before the first packet. -/
def noPacket : RunState := ⟨⟨Mem.zero, 0, 0⟩, false⟩

/-- 8 bytes from block 0 on, and more. -/
def firstBlock : Packet := ⟨ipBytes 28 1 0x2000 (List.replicate 8 7), by decide, by decide⟩

/-- The last 8 bytes, from block 1 on; they read as a hole that is followed by block 0xffff. -/
def lastBlock : Packet := ⟨ipBytes 28 1 1 [0, 0, 255, 255, 0, 0, 0, 0], by decide, by decide⟩

theorem netDefragment_run_defined_twoFragments :
    ∃ r, Run.exec RunState.step noPacket [firstBlock, firstBlock, lastBlock] = some r :=
  netDefragment_run_defined _ rfl _ (by decide +kernel)

/-- At block 3, with an `ip_len` of 0. -/
def noLength : Packet := ⟨ipBytes 0 1 0x2003 (List.replicate 8 7), by decide, by decide⟩

/-- The last block of the buffer, and more. -/
def atEnd : Packet := ⟨ipBytes 28 1 (0x2000 + 2057) (List.replicate 8 7), by decide, by decide⟩

/-- At block 2. -/
def behindLast : Packet := ⟨ipBytes 28 1 2 (List.replicate 8 7), by decide, by decide⟩

/-- A length below that of the header, a hole behind the end of the buffer, and a fragment after the
    packet was complete: each of these leaves the buffer. -/
theorem netDefragment_leaves_buffer :
    (noPacket.step noLength).isNone = true ∧ (noPacket.step atEnd).isNone = true ∧
    (Run.exec RunState.step noPacket [firstBlock, lastBlock]).isSome = true ∧
    (Run.exec RunState.step noPacket [firstBlock, lastBlock, behindLast]).isNone = true := by
  decide +kernel

end Net
