import RkUboot.Net.Progress

set_option autoImplicit false

/-! # Packets that are put together

The packet is returned with the last of its fragments, in every order but those in which, before the
first fragment, one arrives that continues the lowest run of fragments so far. In such an order the
packet is returned too early, or without its beginning, or not at all. -/

namespace Net

/-! ## Whole packets -/

/-- Each fragment but the last returns nothing, and the last one the packet. -/
def Reassembles (payload : List UInt8) : Defrag → List Packet → Prop
  | _, [] => False
  | s, [p] => ∃ s', netDefragment s p = some (some (payload.length + ipHdrSize), s') ∧
    s'.pktBuff.bytes ipHdrSize payload.length = payload
  | s, p :: q :: ps => ∃ s', netDefragment s p = some (none, s') ∧ Reassembles payload s' (q :: ps)

/-- No fragment of `todo` continues the lowest run of those that arrived before, as long as the
    first one is missing. -/
def InOrder : List Cut → List Cut → Prop
  | _, [] => True
  | done, p :: todo => ¬ Continues done p ∧ InOrder (p :: done) todo

instance InOrder.decidable : ∀ done todo, Decidable (InOrder done todo)
  | _, [] => .isTrue trivial
  | done, p :: todo => @instDecidableAnd _ _ _ (InOrder.decidable (p :: done) todo)

section Runs

variable {payload : List UInt8} {id lost : Nat} {p : Packet} {order done todo : List Packet}
    {s s' : Defrag}
  {hs : List Gap}

theorem Delivers.perm {order' : List Packet} (h : Delivers payload id order)
    (hperm : order.Perm order') :
    Delivers payload id order' where
  length_le := h.length_le
  ne := fun hnil => h.ne (hnil ▸ hperm).eq_nil
  fragment := fun p hp => h.fragment p (hperm.mem_iff.mpr hp)
  apart := (hperm.pairwise_iff fun {_ _} hab => hab.symm).mp h.apart
  covers := fun x hx => by
    obtain ⟨p, hp, hin⟩ := h.covers x hx
    exact ⟨p, hperm.mem_iff.mp hp, hin⟩

theorem Delivers.shift (h : Delivers payload id (done ++ p :: todo)) :
    Delivers payload id ((p :: done) ++ todo) :=
  h.perm List.perm_middle

theorem Delivers.next (h : Delivers payload id (done ++ p :: todo)) : Next payload id done p where
  length_le := h.length_le
  fragment := h.fragment p (List.mem_append_right _ (.head _))
  fragments := fun q hq => h.fragment q (List.mem_append_left _ hq)
  apart := fun q hq => (List.pairwise_append.mp h.apart).2.2 q hq p (.head _)

theorem Delivers.length_pos (h : Delivers payload id order) : 0 < payload.length := by
  obtain ⟨p, hp⟩ := List.exists_mem_of_ne_nil _ h.ne
  exact Nat.zero_lt_of_lt (h.fragment p hp).start_lt

/-- One of the fragments is the last one of the packet. -/
theorem Delivers.exists_last (h : Delivers payload id order) : ∃ p ∈ order, p.more = false := by
  have hpos := h.length_pos
  obtain ⟨p, hp, -, hstop⟩ := h.covers (payload.length - 1) (by omega)
  refine ⟨p, hp, Bool.eq_false_iff.mpr fun hmore => ?_⟩
  have := (h.fragment p hp).more_iff.mp hmore
  omega

/-- With all fragments, nothing is missing. -/
theorem Delivers.not_missing (h : Delivers payload id order) (x : Nat) : ¬ Missing order x := by
  rintro ⟨-, hmiss⟩
  rcases Nat.lt_or_ge x payload.length with hx | hx
  · obtain ⟨p, hp, hstart, hstop⟩ := h.covers x hx
    exact hmiss p hp ⟨hstart, fun _ => hstop⟩
  · obtain ⟨p, hp, hmore⟩ := h.exists_last
    have := (h.fragment p hp).start_lt
    exact hmiss p hp ⟨by omega, fun hm => absurd hm (by rw [hmore]; decide)⟩

theorem Progress.eq_nil (h : Progress payload id lost done s hs) (hmiss : ∀ x, ¬ Missing done x) :
    hs = [] := by
  cases hs with
  | nil => rfl
  | cons g rest =>
    have hroom := (h.good nofun).shape.room g (.head _)
    exact absurd ((h.holes (8 * g.1)).mp ⟨g, .head _, le_refl _, by omega⟩).1 (hmiss _)

theorem Progress.ne_nil (h : Progress payload id 0 done s hs) (hp : Next payload id done p) :
    hs ≠ [] := by
  rintro rfl
  exact inHole_nil ((h.holes p.start).mpr ⟨hp.missing hp.fragment.closes_start hp.start_lt, Nat.zero_le _⟩)

/-- The payload of a packet that is returned. -/
theorem complete_bytes (s : Defrag) (n : Nat) :
    (complete s).2.pktBuff.bytes ipHdrSize n = s.pktBuff.bytes ipHdrSize n := by
  refine Mem.bytes_congr _ _ _ _ n fun k _ => ?_
  show ((s.pktBuff.set8 2 _).set8 3 _) (ipHdrSize + k) = _
  unfold Mem.set8 ipHdrSize
  rw [if_neg (by omega), if_neg (by omega)]

theorem Progress.bytes_eq (h : Progress payload id 0 done s hs) (hmiss : ∀ x, ¬ Missing done x) :
    s.pktBuff.bytes ipHdrSize payload.length = payload := by
  refine List.ext_getElem (by simp [Mem.bytes]) fun x hx hx' => ?_
  have hdata := h.data x hx' (Nat.zero_le x) (hmiss x)
  rw [List.getD_eq_getElem _ _ hx'] at hdata
  rw [← hdata]
  simp [Mem.bytes]

/-- From where nothing is lost, the packet is put together. -/
theorem Progress.reassembles (hne : todo ≠ []) (hd : Delivers payload id (done ++ todo))
    (h : Progress payload id 0 done s hs)
    (horder : InOrder (done.map Packet.cut) (todo.map Packet.cut)) :
    Reassembles payload s todo := by
  induction todo generalizing done s hs with
  | nil => exact absurd rfl hne
  | cons p todo ih =>
    obtain ⟨hnot, horder⟩ := horder
    obtain ⟨lost', hs', s', h', hrun, hiff⟩ := h.step hd.next (Nat.zero_le _)
    obtain rfl : lost' = 0 := by
      by_contra hpos
      rcases hiff.mp (Nat.pos_of_ne_zero hpos) with hlt | hcont
      · omega
      · exact hnot hcont
    cases todo with
    | nil =>
      have hd' : Delivers payload id (p :: done) := by
        have := hd.shift
        rwa [List.append_nil] at this
      rw [if_pos (h'.eq_nil hd'.not_missing)] at hrun
      refine ⟨(complete s').2, ?_, ?_⟩
      · rw [hrun, ← h'.totalLen hd'.exists_last]
        rfl
      · rw [complete_bytes]
        exact h'.bytes_eq hd'.not_missing
    | cons q todo =>
      rw [if_neg (h'.ne_nil hd.shift.next)] at hrun
      exact ⟨s', hrun, ih nofun hd.shift h' horder⟩

/-- Once the beginning is lost, or if it is going to be, a payload is not put together that does not
    start with a multiple of 8. -/
theorem Progress.not_reassembles (hbyte : (payload.getD 0 0).toNat % 8 ≠ 0) (hne : hs ≠ [])
    (hd : Delivers payload id (done ++ todo)) (h : Progress payload id lost done s hs)
    (htrouble : 0 < lost ∨ ¬ InOrder (done.map Packet.cut) (todo.map Packet.cut)) :
    ¬ Reassembles payload s todo := by
  induction todo generalizing done s hs lost with
  | nil => exact fun hfalse => hfalse
  | cons p todo ih =>
    rcases h.cases hd.next with ⟨hpos, hmore, hstop⟩ | hlost
    · obtain ⟨hrun, h'⟩ := h.dropped hne hd.next hmore hstop
      cases todo with
      | nil =>
        rintro ⟨s', hret, -⟩
        rw [hrun] at hret
        cases hret
      | cons q todo =>
        rintro ⟨s', hret, hrest⟩
        rw [hrun] at hret
        cases hret
        exact ih hne hd.shift h' (.inl hpos) hrest
    · obtain ⟨lost', hs', s', h', hrun, hiff⟩ := h.step hd.next hlost
      have htrouble' : 0 < lost' ∨ ¬ InOrder ((p :: done).map Packet.cut) (todo.map Packet.cut) := by
        by_contra hnone
        obtain ⟨hzero, horder⟩ := not_or.mp hnone
        have hzero' := mt hiff.mpr hzero
        exact htrouble.elim (fun hpos => hzero' (.inl hpos)) fun hnot =>
          hnot ⟨fun hcont => hzero' (.inr hcont), not_not.mp horder⟩
      cases todo with
      | nil =>
        -- The packet starts with the descriptor of the hole that was lost.
        rintro ⟨s'', hret, hpayload⟩
        have hpos := htrouble'.resolve_right (not_not.mpr trivial)
        by_cases hnil : hs' = []
        · rw [hrun, if_pos hnil] at hret
          obtain rfl : (complete s').2 = s'' := congrArg Prod.snd (Option.some.inj hret)
          rw [complete_bytes] at hpayload
          have hlen := hd.length_pos
          have hfirst : payload.getD 0 0 = s'.pktBuff ipHdrSize := by
            rw [← hpayload]
            simp [Mem.bytes, List.getD_eq_getElem?_getD, hlen]
          rw [hfirst] at hbyte
          exact hbyte (h'.beginning hpos)
        · rw [hrun, if_neg hnil] at hret
          cases hret
      | cons q todo =>
        rintro ⟨s'', hret, hrest⟩
        by_cases hnil : hs' = []
        · rw [hrun, if_pos hnil] at hret
          cases hret
        · rw [hrun, if_neg hnil] at hret
          cases hret
          exact ih hnil hd.shift h' htrouble' hrest

/-- The first fragment of a packet. -/
theorem progress_reset (hlen : payload.length ≤ ipMaxudp) (s : Defrag) (p : Packet) :
    Progress payload p.ipId 0 [] (s.reset p) [(0, 65535)] where
  good := fun _ => good_reset s p
  strict := List.pairwise_singleton _ _
  holes := fun x => by
    simp [InHole, Missing]
  id_eq := reset_ipId s p
  totalLen_ne := show (65535 : Nat) ≠ 0 by decide
  totalLen := by
    rintro ⟨q, hq, -⟩
    cases hq
  data := fun x hx _ hmiss => by
    unfold ipMaxudp ipPktsize ipHdrSize at hlen
    exact absurd ⟨by omega, fun q hq => absurd hq List.not_mem_nil⟩ hmiss
  arrived := fun hpos => absurd hpos (lt_irrefl 0)
  beginning := fun hpos => absurd hpos (lt_irrefl 0)

/-- The run starts with a new packet. -/
theorem Delivers.reassembles_iff (hd : Delivers payload id (p :: todo))
    (hfresh : s.totalLen = 0 ∨ s.ipId ≠ id) :
    Reassembles payload s (p :: todo) ↔ Reassembles payload (s.reset p) (p :: todo) := by
  have hp : Next payload id [] p := Delivers.next (show Delivers payload id ([] ++ p :: todo) from hd)
  have hrun : netDefragment s p = netDefragment (s.reset p) p := by
    refine netDefragment_fresh ?_ hp.inBuffer
    unfold Defrag.Fresh
    rwa [hp.fragment.id_eq]
  cases todo with
  | nil => simp only [Reassembles, hrun]
  | cons q todo => simp only [Reassembles, hrun]

end Runs

/-! ## Other data -/

/-- The header of a packet, with `b` for everything behind it. -/
def refill (bytes : List UInt8) (b : UInt8) : List UInt8 :=
  bytes.take ipHdrSize ++ List.replicate (bytes.length - ipHdrSize) b

section Refill

variable {bytes : List UInt8} {b : UInt8}

theorem length_refill (h : ipHdrSize ≤ bytes.length) : (refill bytes b).length = bytes.length := by
  simp only [refill, List.length_append, List.length_take, List.length_replicate]
  omega

theorem refill_header (h : ipHdrSize ≤ bytes.length) {k : Nat} (hk : k < ipHdrSize) :
    (refill bytes b).getD k 0 = bytes.getD k 0 := by
  rw [refill, List.getD_append _ _ _ _ (by rw [List.length_take]; omega), List.getD_eq_getElem?_getD,
    List.getD_eq_getElem?_getD, List.getElem?_take_of_lt hk]

theorem refill_data {k : Nat} (hk : ipHdrSize + k < bytes.length) :
    (refill bytes b).getD (ipHdrSize + k) 0 = b := by
  have hlen : (bytes.take ipHdrSize).length = ipHdrSize := by
    rw [List.length_take]
    omega
  rw [refill, List.getD_append_right _ _ _ _ (by omega), hlen, Nat.add_sub_cancel_left,
    List.getD_replicate _ (by omega)]

theorem be16_refill (h : ipHdrSize ≤ bytes.length) {k : Nat} (hk : k + 1 < ipHdrSize) :
    be16 (refill bytes b) k = be16 bytes k := by
  rw [be16, be16, refill_header h (by omega), refill_header h hk]

end Refill

section Ones

variable (p : Packet) (b : UInt8)

theorem Packet.hdr_le : ipHdrSize ≤ p.bytes.length := by
  have := p.header_le
  unfold ipHdrSize
  omega

/-- The fragment with other data. -/
def Packet.refill : Packet where
  bytes := Net.refill p.bytes b
  header_le := by
    rw [length_refill p.hdr_le]
    exact p.header_le
  ipLen_le := by
    rw [length_refill p.hdr_le, be16_refill p.hdr_le (by decide)]
    exact p.ipLen_le

theorem Packet.refill_fields : (p.refill b).ipId = p.ipId ∧ (p.refill b).more = p.more ∧
    (p.refill b).len = p.len ∧ (p.refill b).cut = p.cut := by
  have hid : (p.refill b).ipId = p.ipId := be16_refill p.hdr_le (by decide)
  have hlen : (p.refill b).ipLen = p.ipLen := be16_refill p.hdr_le (by decide)
  have hoff : (p.refill b).ipOff = p.ipOff := be16_refill p.hdr_le (by decide)
  simp only [Packet.more, Packet.cut, Packet.stop, Packet.start, Packet.offset8, Packet.len, hid,
    hlen, hoff,
    and_self]

variable {p} {payload : List UInt8} {id : Nat} {order : List Packet}

theorem Fragment.refill (h : Fragment payload id p) :
    Fragment (List.replicate payload.length b) id (p.refill b) := by
  obtain ⟨hid, hmore, hlen, hcut⟩ := p.refill_fields b
  have hstart : (p.refill b).start = p.start := congrArg Prod.fst hcut
  have hstop : (p.refill b).stop = p.stop := congrArg Prod.snd hcut
  refine ⟨hid.trans h.id_eq, by rw [hlen]; exact h.pos, ?_, ?_, ?_, fun k hk => ?_⟩
  · rw [hstop, List.length_replicate]
    exact h.stop_le
  · rw [hmore, hstop, List.length_replicate]
    exact h.more_iff
  · rw [hmore, hlen]
    exact h.multiple
  · rw [hlen] at hk
    have hle := h.stop_le
    have hbytes := p.ipLen_le
    have hlenEq : p.len = be16 p.bytes 2 - ipHdrSize := rfl
    have hstopEq : p.stop = p.start + p.len := rfl
    rw [hstart, List.getD_replicate _ (by omega)]
    exact refill_data (by omega)

theorem Delivers.refill (h : Delivers payload id order) :
    Delivers (List.replicate payload.length b) id (order.map (Packet.refill · b)) := by
  have hcut : ∀ p : Packet, (p.refill b).start = p.start ∧ (p.refill b).stop = p.stop := fun p =>
    Prod.mk.inj (p.refill_fields b).2.2.2
  refine ⟨by rw [List.length_replicate]; exact h.length_le, by simpa using h.ne, ?_, ?_,
    fun x hx => ?_⟩
  · simp only [List.mem_map, forall_exists_index, and_imp, forall_apply_eq_imp_iff₂]
    exact fun p hp => (h.fragment p hp).refill b
  · rw [List.pairwise_map]
    refine h.apart.imp fun {p q} hpq => ?_
    unfold Packet.Apart at *
    rwa [(hcut p).1, (hcut p).2, (hcut q).1, (hcut q).2]
  · rw [List.length_replicate] at hx
    obtain ⟨p, hp, hin⟩ := h.covers x hx
    refine ⟨p.refill b, List.mem_map_of_mem hp, ?_⟩
    rwa [(hcut p).1, (hcut p).2]

end Ones

/-- **A packet is put together from its fragments** in every order in which none of them, before the
    first one has arrived, continues the lowest run of those that have; and in such an order only.
    -/
theorem netDefragment_reassembles_iff (s : Defrag) (payload : List UInt8) (id : Nat)
    (order : List Packet)
    (hd : Delivers payload id order) (hfresh : s.totalLen = 0 ∨ s.ipId ≠ id) :
    (∀ payload' order', Delivers payload' id order' → order'.map Packet.cut = order.map Packet.cut →
      Reassembles payload' s order') ↔ InOrder [] (order.map Packet.cut) := by
  have hrun : ∀ payload' p todo, Delivers payload' id (p :: todo) →
      Progress payload' id 0 [] (s.reset p) [(0, 65535)] := fun payload' p todo hd' => by
    have := progress_reset hd'.length_le s p
    rwa [(hd'.fragment p (.head _)).id_eq] at this
  constructor
  · intro hall
    by_contra hnot
    have hones := hd.refill 1
    have hcuts : (order.map (Packet.refill · 1)).map Packet.cut = order.map Packet.cut := by
      rw [List.map_map]
      exact List.map_congr_left fun p _ => (p.refill_fields 1).2.2.2
    have hre := hall _ _ hones hcuts
    rw [← hcuts] at hnot
    generalize order.map (Packet.refill · 1) = order' at *
    cases order' with
    | nil => exact hones.ne rfl
    | cons p todo =>
      rw [hones.reassembles_iff hfresh] at hre
      refine Progress.not_reassembles ?_ (List.cons_ne_nil _ _) hones (hrun _ p todo hones) (.inr hnot) hre
      rw [List.getD_replicate _ hd.length_pos]
      decide
  · intro horder payload' order' hd' hcuts
    rw [← hcuts] at horder
    cases order' with
    | nil => exact absurd rfl hd'.ne
    | cons p todo =>
      rw [hd'.reassembles_iff hfresh]
      exact Progress.reassembles nofun hd' (hrun _ p todo hd') horder

/-- The second of three blocks. -/
def middleBlock : Packet := ⟨ipBytes 28 1 0x2001 (List.replicate 8 7), by decide, by decide⟩

/-- A block of a payload of sevens. -/
theorem fragment_of_block (p : Packet) (hid : p.ipId = 1) (hlen : p.len = 8) (hstop : p.stop ≤ 24)
    (hmore : p.more = true ↔ p.stop < 24) (hdata : ∀ k < 8, p.bytes.getD (ipHdrSize + k) 0 = 7) :
    Fragment (List.replicate 24 7) 1 p := by
  refine ⟨hid, by omega, hstop, hmore, fun _ => by omega, fun k hk => ?_⟩
  have hstopEq : p.stop = p.start + p.len := rfl
  rw [hdata k (by omega), List.getD_replicate _ (by omega)]

/-- Three blocks of eight bytes, in the order of their offsets. -/
theorem delivers_blocks : Delivers (List.replicate 24 7) 1 [firstBlock, middleBlock, behindLast] where
  length_le := by decide
  ne := List.cons_ne_nil _ _
  fragment := by
    simp only [List.mem_cons, List.not_mem_nil, or_false, forall_eq_or_imp, forall_eq]
    refine ⟨fragment_of_block _ ?_ ?_ ?_ ?_ ?_, fragment_of_block _ ?_ ?_ ?_ ?_ ?_,
      fragment_of_block _ ?_ ?_ ?_ ?_ ?_⟩ <;> decide
  apart := by decide
  covers := by decide

theorem netDefragment_reassembles_iff_backwards :
    Reassembles (List.replicate 24 7) noPacket.vars [behindLast, middleBlock, firstBlock] := by
  have hd : Delivers (List.replicate 24 7) 1 [behindLast, middleBlock, firstBlock] :=
    delivers_blocks.perm (List.reverse_perm [behindLast, middleBlock, firstBlock])
  have horder : InOrder [] ([behindLast, middleBlock, firstBlock].map Packet.cut) := by decide
  exact (netDefragment_reassembles_iff noPacket.vars _ 1 _ hd (.inl rfl)).mpr horder _ _ hd rfl

/-- Of three blocks, the second, the third and then the first: the packet is returned before the
    first block has arrived. -/
theorem netDefragment_returns_early :
    Delivers (List.replicate 24 7) 1 [middleBlock, behindLast, firstBlock] ∧
    ¬ Reassembles (List.replicate 24 7) noPacket.vars [middleBlock, behindLast, firstBlock] := by
  refine ⟨delivers_blocks.perm
    (List.perm_append_comm : ([firstBlock] ++ [middleBlock, behindLast]).Perm _), ?_⟩
  have hearly : (netDefragment noPacket.vars middleBlock).bind (fun r => (netDefragment r.2 behindLast).map Prod.fst)
      = some (some 44) := by decide +kernel
  rintro ⟨s, hmiddle, s', hlast, -⟩
  rw [hmiddle, Option.bind_some, hlast] at hearly
  simp at hearly

end Net
