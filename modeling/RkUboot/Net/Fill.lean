import Mathlib.Data.List.TakeWhile
import RkUboot.Net.HoleList

set_option autoImplicit false

/-! # A fragment and the hole list

`fill` is what a fragment does to the list of holes. The main result, `netDefragment_fill`, is that
`__NetDefragment` does this to the list in the buffer, for a fragment that is `Gentle`: one that
does not reach into the next hole, and behind which a descriptor still has its place. -/

namespace Net

open DoublyLinked

/-! ## Holes after a fragment -/

/-- The holes that end before the fragment. -/
def holesBefore (hs : List Gap) (p : Packet) : List Gap := hs.takeWhile fun h => decide (h.2 < p.start)

/-- The holes from the one on that the walk ends at. -/
def holesFrom (hs : List Gap) (p : Packet) : List Gap := hs.dropWhile fun h => decide (h.2 < p.start)

theorem holesBefore_append_holesFrom (hs : List Gap) (p : Packet) :
    holesBefore hs p ++ holesFrom hs p = hs :=
  List.takeWhile_append_dropWhile

/-- The fragment reaches into hole `i`. -/
def Packet.Overlaps (p : Packet) (i : Nat) : Prop := (i : Int) < p.offset8 + (p.len + 7).tdiv 8
  deriving Decidable

/-- The holes after a fragment that reaches into `(i, last)`. -/
def fillHole (pre : List Gap) (i last : Nat) (post : List Gap) (p : Packet) : List Gap :=
  let new := (p.offset8 + p.len.tdiv 8).toNat
  if p.more = true ∧ p.stop < last then
    if p.offset8 ≤ i then live pre ++ (new, last) :: post else pre ++ (i, p.start) :: (new, last) :: post
  else if p.offset8 ≤ i then live pre ++ post
  else pre ++ (i, p.start) :: post

/-- The holes after a fragment, none left for a complete packet; `none` if the fragment is dropped. -/
def fill (hs : List Gap) (p : Packet) : Option (List Gap) :=
  match holesFrom hs p with
  | [] => none
  | (i, last) :: post => if p.Overlaps i then some (fillHole (holesBefore hs p) i last post p) else none

/-- A fragment that keeps the holes from the one on in order that the walk ends at: it is not
    shorter than its header, it does not reach into the next hole, and if some of its hole is left
    behind it, there is a block in the buffer for the descriptor. -/
def GentleFrom (p : Packet) : List Gap → Prop
  | [] => True
  | (i, last) :: post => p.Overlaps i → 0 ≤ p.len ∧ (∀ b ∈ post.head?, p.stop ≤ (8 * b.1 : Nat)) ∧
    (p.more = true → p.stop < last → p.len % 8 = 0 ∧ p.stop < ipMaxudp)

instance GentleFrom.decidable (p : Packet) : ∀ hs, Decidable (GentleFrom p hs)
  | [] => .isTrue trivial
  | _ :: _ => inferInstanceAs (Decidable (_ → _))

/-- A fragment that keeps the list in order. -/
def Gentle (hs : List Gap) (p : Packet) : Prop := GentleFrom p (holesFrom hs p)
  deriving Decidable

variable {new start : Nat} {d : Nat → Hole}

section Filling

variable {s : Defrag} {hs pre post mid : List Gap} {p : Packet} {i last : Nat}

theorem Shape.sublist {hs' : List Gap} (h : Shape hs) (hsub : hs'.Sublist hs) : Shape hs' :=
  ⟨fun a ha => h.slot a (hsub.subset ha), fun a ha => h.room a (hsub.subset ha),
    fun a ha => h.last_le a (hsub.subset ha), fun a ha => h.last_mod a (hsub.subset ha), h.sorted.sublist hsub⟩

theorem live_sublist (pre : List Gap) : (live pre).Sublist pre := by
  unfold live
  split
  · exact List.nil_sublist pre
  · exact List.Sublist.refl pre

/-- A hole is replaced by parts of it. -/
theorem Shape.replace (h : Shape (pre ++ (i, last) :: post)) (hmid : Shape mid)
    (hin : ∀ g ∈ mid, i ≤ g.1 ∧ g.2 ≤ last) : Shape (pre ++ (mid ++ post)) := by
  have hpre : Shape pre := h.sublist (List.sublist_append_left _ _)
  have hpost : Shape post := h.sublist ((List.sublist_cons_self _ _).trans (List.sublist_append_right _ _))
  have hsorted := List.pairwise_append.mp h.sorted
  refine ⟨?_, ?_, ?_, ?_, ?_⟩
  · simp only [List.mem_append]
    rintro a (ha | ha | ha)
    exacts [hpre.slot a ha, hmid.slot a ha, hpost.slot a ha]
  · simp only [List.mem_append]
    rintro a (ha | ha | ha)
    exacts [hpre.room a ha, hmid.room a ha, hpost.room a ha]
  · simp only [List.mem_append]
    rintro a (ha | ha | ha)
    exacts [hpre.last_le a ha, hmid.last_le a ha, hpost.last_le a ha]
  · simp only [List.mem_append]
    rintro a (ha | ha | ha)
    exacts [hpre.last_mod a ha, hmid.last_mod a ha, hpost.last_mod a ha]
  rw [List.pairwise_append, List.pairwise_append]
  refine ⟨hpre.sorted, ⟨hmid.sorted, hpost.sorted, fun g hg b hb => ?_⟩, fun a ha b hb => ?_⟩
  · have := h.behind b hb
    have := (hin g hg).2
    omega
  rcases List.mem_append.mp hb with hb | hb
  · have := h.before a ha
    have := (hin b hb).1
    omega
  · exact hsorted.2.2 a ha b (.tail _ hb)

theorem Linked.congr {d' : Nat → Hole} (h : Linked d hs) (hd : ∀ j ∈ indices hs, d' j = d j) :
    Linked d' hs :=
  ⟨HoleSeg.out_of_eq h.seg hd, fun g hg => by rw [hd _ (List.mem_map_of_mem hg)]; exact h.last g hg⟩

/-- A list that is not lost starts as it did. -/
theorem head_of_live (hq : (indices pre).getLastD 0 ≠ 0) (xs ys : List Gap) :
    (indices (pre ++ xs)).headD 0 = (indices (pre ++ ys)).headD 0 := by
  rw [indices_append, indices_append]
  cases h : indices pre with
  | nil => rw [h] at hq; exact absurd rfl hq
  | cons x xs => rfl

theorem live_append_eq_nil (h : Between d pre i post) :
    live pre ++ post = [] ↔ (d i).prev = 0 ∧ (d i).next = 0 := by
  rw [List.append_eq_nil_iff, h.prev_eq, h.next_eq_zero]
  refine and_congr_left fun _ => ?_
  unfold live
  split
  · next hzero => exact iff_of_true rfl hzero
  next hne =>
  refine iff_of_false (fun heq => hne ?_) hne
  rw [heq]
  rfl

/-- The last hole before is one of those that stay. -/
theorem prev_mem_live (h : Between d pre i post) (hq : (d i).prev ≠ 0)
    (xs : List Gap) :
    (d i).prev ∈ indices (live pre ++ xs) := by
  rw [h.prev_eq] at hq ⊢
  rw [indices_append, live, if_neg hq]
  exact List.mem_append_left _ (last_mem hq)

theorem next_mem (h : Between d pre i post) (hn : (d i).next ≠ 0) :
    (d i).next ∈ indices post := by
  rw [h.next_eq] at hn ⊢
  cases post with
  | nil => exact absurd rfl hn
  | cons b post => exact .head _

/-- What becomes of the list is in the buffer. -/
structure Fixed (s s' : Defrag) (i : Nat) (hs' : List Gap) : Prop where
  untouched : Untouched s.pktBuff s'.pktBuff (i :: indices hs')
  linked : hs' ≠ [] → Linked (hole s'.pktBuff) hs'
  first : hs' ≠ [] → s'.firstHole = (indices hs').headD 0
  totalLen : s'.totalLen = s.totalLen

section Fixing

variable {last' : Nat} (hb : Between (hole s.pktBuff) pre i post)
  (hfirst : s.firstHole = (indices (pre ++ (i, last') :: post)).headD 0)

include hb hfirst

theorem removeHole_fixed :
    ∃ s', removeHole s i = some (decide (live pre ++ post = []), s') ∧ Fixed s s' i (live pre ++ post) := by
  have hdone : decide (live pre ++ post = [])
      = decide (prevHole s.pktBuff i = 0 ∧ nextHole s.pktBuff i = 0) :=
    decide_eq_decide.mpr (live_append_eq_nil hb)
  rw [hdone]
  refine ⟨_, removeHole_val hb.prev_lt hb.next_lt, ?_, fun hne => ?_, fun hne => ?_, rfl⟩
  · refine ((Untouched.refl _ _).linkPrev fun hn => ?_).linkNext fun hq => ?_
    · refine .tail _ ?_
      rw [indices_append]
      exact List.mem_append_right _ (next_mem hb hn)
    · exact .tail _ (prev_mem_live hb hq _)
  · dsimp only
    rw [hole_linkNext _ (show nextHole s.pktBuff i < holeSlots from hb.next_lt),
      hole_linkPrev _ (show prevHole s.pktBuff i < holeSlots from hb.prev_lt)]
    exact hb.remove
  · dsimp only
    have hprev : prevHole s.pktBuff i = (indices pre).getLastD 0 := hb.prev_eq
    have hnext : nextHole s.pktBuff i = (indices post).headD 0 := hb.next_eq
    by_cases hq : prevHole s.pktBuff i = 0
    · have hn : nextHole s.pktBuff i ≠ 0 := fun hn => hne ((live_append_eq_nil hb).mpr ⟨hq, hn⟩)
      rw [if_pos ⟨hq, hn⟩, live, if_pos (hprev ▸ hq), hnext]
      rfl
    · rw [if_neg fun h => hq h.1, live, if_neg (hprev ▸ hq), hfirst]
      exact head_of_live (hprev ▸ hq) _ _

theorem moveHole_fixed (hnew : hb.Fits new) (hslot : new < holeSlots)
    (hlast : (hole s.pktBuff i).last = last) :
    ∃ s', moveHole s i new = some (false, s') ∧ Fixed s s' i (live pre ++ (new, last) :: post) := by
  refine ⟨_, moveHole_val hslot hb.prev_lt hb.next_lt hnew.ne_next, ?_, fun _ => ?_, fun _ => ?_, rfl⟩
  · refine (((Untouched.refl _ _).copy ?_).linkPrev fun hn => ?_).linkNext fun hq => ?_
    · simp
    · refine .tail _ ?_
      rw [indices_append, indices_cons]
      exact List.mem_append_right _ (.tail _ (next_mem hb hn))
    · exact .tail _ (prev_mem_live hb hq _)
  · dsimp only
    rw [hole_linkNext _ hslot, hole_linkPrev _ hslot, hole_copy, ← hlast]
    exact hb.move hnew
  dsimp only
  have hprev : prevHole s.pktBuff i = (indices pre).getLastD 0 := hb.prev_eq
  by_cases hq : prevHole s.pktBuff i = 0
  · rw [if_pos hq, live, if_pos (hprev ▸ hq)]
    rfl
  · rw [if_neg hq, live, if_neg (hprev ▸ hq), hfirst]
    exact head_of_live (hprev ▸ hq) _ _

theorem splitHole_fixed (hnew : hb.Fits new) (hslot : new < holeSlots)
    (hstart : start < 65536)
    (hlast : (hole s.pktBuff i).last = last) :
    ∃ s', splitHole s i new start = some (false, s') ∧
      Fixed s s' i (pre ++ (i, start) :: (new, last) :: post) := by
  obtain ⟨m, hval, hhole, huntouched⟩ := splitHole_val start hslot hb.next_lt hb.slot
    (Nat.ne_of_lt hnew.gt) hstart
  refine ⟨_, hval, ?_, fun _ => ?_, fun _ => ?_, rfl⟩
  · refine Untouched.linkPrev (fun x hx => huntouched x fun j hj => hx j ?_) fun hn => ?_
    · rw [indices_append, indices_cons, indices_cons]
      rcases List.mem_cons.mp hj with rfl | hj
      · exact .head _
      · rw [List.mem_singleton.mp hj]
        exact .tail _ (List.mem_append_right _ (.tail _ (.head _)))
    · refine .tail _ ?_
      rw [indices_append, indices_cons, indices_cons]
      exact List.mem_append_right _ (.tail _ (.tail _ (next_mem hb hn)))
  · dsimp only
    rw [hole_linkPrev _ hslot, hhole, ← hlast]
    exact hb.split hnew
  · dsimp only
    rw [hfirst, indices_append, indices_append]
    cases indices pre <;> rfl

theorem shortenHole_fixed (hstart : start < 65536) :
    Fixed s { s with pktBuff := setLastByte s.pktBuff i start } i (pre ++ (i, start) :: post) := by
  refine ⟨(Untouched.refl _ _).set16 (k := 0) (.head _) (by omega), fun _ => ?_,
    fun _ => ?_, rfl⟩
  · dsimp only
    rw [hole_setLastByte, Nat.mod_eq_of_lt hstart]
    exact hb.shorten
  · dsimp only
    rw [hfirst, indices_append, indices_append]
    cases indices pre <;> rfl

end Fixing

/-- The fragment was checked against the buffer. -/
def Packet.InBuffer (p : Packet) : Prop := 0 ≤ p.stop ∧ p.stop ≤ ipMaxudp
  deriving Decidable

/-- The first hole that does not end before the fragment, with what is known of it. -/
structure Struck (s : Defrag) (p : Packet) (pre : List Gap) (i last : Nat) (post : List Gap) : Prop where
  good : Good s (pre ++ (i, last) :: post)
  before : ∀ a ∈ pre, a.2 < p.start
  start_le : p.start ≤ last
  inBuffer : p.InBuffer
  overlaps : p.Overlaps i
  len_nonneg : 0 ≤ p.len
  stop_le : ∀ b ∈ post, p.stop ≤ (8 * b.1 : Nat)
  descriptor : p.more = true → p.stop < last → p.len % 8 = 0 ∧ p.stop < ipMaxudp

theorem Struck.between (h : Struck s p pre i last post) :
    Between (hole (truncateHole s p i).pktBuff) pre i post := by
  have hb := h.good.linked.between h.good.shape
  unfold truncateHole
  split
  · exact hb
  · dsimp only
    rw [hole_setLastByte]
    exact hb.shorten.between h.good.shape

theorem Struck.first (h : Struck s p pre i last post) :
    (truncateHole s p i).firstHole = (indices (pre ++ (i, last) :: post)).headD 0 := by
  rw [← h.good.first]
  unfold truncateHole
  split <;> rfl

/-- Where the hole ends after the truncation. -/
theorem Struck.lastByte_eq (h : Struck s p pre i last post) :
    ((lastByte (truncateHole s p i).pktBuff i : Nat) : Int) = if p.more then (last : Int) else p.stop := by
  have hlast : lastByte s.pktBuff i = last :=
    h.good.linked.last (i, last) (List.mem_append_right _ (.head _))
  obtain ⟨hlow, hhigh⟩ := h.inBuffer
  unfold ipMaxudp ipPktsize ipHdrSize at hhigh
  unfold truncateHole
  split
  · rw [hlast]
  · show ((Mem.u16 (Mem.set16 s.pktBuff (holeAddr i) p.stop.toNat) (holeAddr i) : Nat) : Int) = p.stop
    rw [Mem.u16_set16_same]
    omega

/-- With a multiple of 8, the fragment ends where block `new` starts. -/
theorem Packet.new_eq (p : Packet) (hlen : 0 ≤ p.len) (hmod : p.len % 8 = 0) :
    ((8 * (p.offset8 + p.len.tdiv 8).toNat : Nat) : Int) = p.stop := by
  have hdiv : p.len.tdiv 8 = p.len / 8 := Int.tdiv_eq_ediv_of_nonneg hlen
  unfold Packet.stop Packet.start
  rw [hdiv]
  omega

theorem Packet.overlaps_iff (p : Packet) (hlen : 0 ≤ p.len) (i : Nat) :
    p.Overlaps i ↔ (i : Int) < p.offset8 + (p.len + 7) / 8 := by
  rw [Packet.Overlaps, Int.tdiv_eq_ediv_of_nonneg (by omega)]

theorem Struck.fits (h : Struck s p pre i last post) (hmore : p.more = true) (hopen : p.stop < last) :
    h.between.Fits (p.offset8 + p.len.tdiv 8).toNat ∧ (p.offset8 + p.len.tdiv 8).toNat < holeSlots := by
  obtain ⟨hmod, hstop⟩ := h.descriptor hmore hopen
  have hnew := p.new_eq h.len_nonneg hmod
  have hover := (p.overlaps_iff h.len_nonneg i).mp h.overlaps
  unfold ipMaxudp ipPktsize ipHdrSize at hstop
  refine ⟨⟨?_, fun x hx => ?_⟩, ?_⟩
  · unfold Packet.stop Packet.start at hnew
    omega
  · obtain ⟨b, hb, rfl⟩ := List.mem_map.mp hx
    have := h.good.shape.behind b hb
    omega
  · unfold holeSlots
    omega

/-- The list is fixed. -/
theorem fixHoles_fixed (h : Struck s p pre i last post) :
    ∃ s', fixHoles (truncateHole s p i) p i = some (decide (fillHole pre i last post p = []), s') ∧
      Fixed (truncateHole s p i) s' i (fillHole pre i last post p) := by
  have hstart : p.start < 65536 := by
    have hlast : last ≤ 65535 := h.good.shape.last_le (i, last) (List.mem_append_right _ (.head _))
    have := h.start_le
    omega
  rw [fixHoles, h.lastByte_eq]
  by_cases hopen : p.more = true ∧ p.stop < last
  · obtain ⟨hmore, hlt⟩ := id hopen
    obtain ⟨hfits, hslot⟩ := h.fits hmore hlt
    have hsame : truncateHole s p i = s := if_pos hmore
    have hlastHole : (hole (truncateHole s p i).pktBuff i).last = last := by
      rw [hsame]
      exact h.good.linked.last (i, last) (List.mem_append_right _ (.head _))
    rw [if_pos hmore, if_neg (by omega), if_neg (by omega), fillHole, if_pos hopen]
    by_cases hoff : p.offset8 ≤ i
    · rw [if_pos hoff, if_pos hoff]
      obtain ⟨s', hval, hfixed⟩ := moveHole_fixed h.between h.first hfits hslot hlastHole
      refine ⟨s', ?_, hfixed⟩
      rw [hval, decide_eq_false]
      simp
    · rw [if_neg hoff, if_neg hoff]
      obtain ⟨s', hval, hfixed⟩ := splitHole_fixed h.between h.first hfits hslot hstart hlastHole
      refine ⟨s', ?_, hfixed⟩
      rw [hval, decide_eq_false]
      simp
  · have hle : (if p.more then (last : Int) else p.stop) ≤ p.stop := by
      split
      · next hmore =>
          by_contra hgt
          exact hopen ⟨hmore, by omega⟩
      · exact le_rfl
    rw [fillHole, if_neg hopen]
    by_cases hoff : p.offset8 ≤ i
    · rw [if_pos ⟨hoff, hle⟩, if_pos hoff]
      exact removeHole_fixed h.between h.first
    rw [if_neg fun hc => hoff hc.1, if_pos hle, if_neg hoff]
    refine ⟨_, ?_, shortenHole_fixed h.between h.first hstart⟩
    rw [decide_eq_false]
    simp

/-- The holes that are left are in order. -/
theorem Struck.shape (h : Struck s p pre i last post) : Shape (fillHole pre i last post p) := by
  have hshape := h.good.shape
  have hmem : (i, last) ∈ pre ++ (i, last) :: post := List.mem_append_right _ (.head _)
  have hslot : i < holeSlots := hshape.slot _ hmem
  have hle : last ≤ 65535 := hshape.last_le _ hmem
  have hmod : last % 8 = 0 ∨ last = 65535 := hshape.last_mod _ hmem
  have hstart := h.start_le
  have hlen := h.len_nonneg
  have hshort : ¬ p.offset8 ≤ i → Shape [(i, p.start)] := by
    intro hoff
    refine ⟨?_, ?_, ?_, ?_, List.pairwise_singleton _ _⟩ <;> simp only [List.mem_singleton, forall_eq]
    · exact hslot
    · unfold Packet.start
      omega
    · omega
    · unfold Packet.start
      omega
  unfold fillHole
  split
  · next hopen =>
      obtain ⟨hmore, hlt⟩ := hopen
      obtain ⟨hmod', hstop⟩ := h.descriptor hmore hlt
      obtain ⟨hfits, hslot'⟩ := h.fits hmore hlt
      have hnew := p.new_eq hlen hmod'
      have hgt := hfits.gt
      generalize (p.offset8 + p.len.tdiv 8).toNat = new at *
      have hrest : Shape [(new, last)] := by
        unfold ipMaxudp ipPktsize ipHdrSize at hstop
        refine ⟨?_, ?_, ?_, ?_, List.pairwise_singleton _ _⟩ <;> simp only [List.mem_singleton,
          forall_eq]
        · exact hslot'
        · omega
        · exact hle
        · exact hmod
      split
      · refine (hshape.replace hrest ?_).sublist (List.Sublist.append_right (live_sublist pre) _)
        simp only [List.mem_singleton, forall_eq]
        omega
      next hoff =>
      have hboth : Shape [(i, p.start), (new, last)] := by
        refine ⟨?_, ?_, ?_, ?_, ?_⟩
        · exact List.forall_mem_cons.mpr ⟨(hshort hoff).slot _ (.head _), hrest.slot⟩
        · exact List.forall_mem_cons.mpr ⟨(hshort hoff).room _ (.head _), hrest.room⟩
        · exact List.forall_mem_cons.mpr ⟨(hshort hoff).last_le _ (.head _), hrest.last_le⟩
        · exact List.forall_mem_cons.mpr ⟨(hshort hoff).last_mod _ (.head _), hrest.last_mod⟩
        refine List.pairwise_cons.mpr ⟨?_, List.pairwise_singleton _ _⟩
        simp only [List.mem_singleton, forall_eq]
        unfold Packet.stop at hnew
        omega
      refine hshape.replace hboth (List.forall_mem_cons.mpr ⟨⟨le_refl _, hstart⟩, ?_⟩)
      simp only [List.mem_singleton, forall_eq]
      omega
  · split
    · exact hshape.sublist ((live_sublist pre).append (List.sublist_cons_self _ _))
    next hoff =>
    refine hshape.replace (hshort hoff) ?_
    simp only [List.mem_singleton, forall_eq]
    exact ⟨le_refl _, hstart⟩

/-- The data does not touch the descriptors that are left. -/
theorem Struck.apart (h : Struck s p pre i last post) :
    ∀ j ∈ indices (fillHole pre i last post p), 8 * j + 8 ≤ p.start ∨ p.stop ≤ (8 * j : Nat) := by
  have hpre : ∀ j ∈ indices pre, 8 * j + 8 ≤ p.start := by
    intro j hj
    obtain ⟨a, ha, rfl⟩ := List.mem_map.mp hj
    have := h.before a ha
    have := h.good.shape.room a (List.mem_append_left _ ha)
    omega
  have hlive : ∀ j ∈ indices (live pre), 8 * j + 8 ≤ p.start := fun j hj =>
    hpre j (((live_sublist pre).map Prod.fst).subset hj)
  have hpost : ∀ j ∈ indices post, p.stop ≤ (8 * j : Nat) := by
    intro j hj
    obtain ⟨b, hb, rfl⟩ := List.mem_map.mp hj
    exact h.stop_le b hb
  have hself : ¬ p.offset8 ≤ i → 8 * i + 8 ≤ p.start := by
    unfold Packet.start
    omega
  intro j hj
  unfold fillHole at hj
  split at hj
  · next hopen =>
      have hnew := p.new_eq h.len_nonneg (h.descriptor hopen.1 hopen.2).1
      split at hj
      · simp only [indices_append, indices_cons, List.mem_append, List.mem_cons] at hj
        rcases hj with hj | rfl | hj
        exacts [.inl (hlive j hj), .inr hnew.ge, .inr (hpost j hj)]
      next hoff =>
      simp only [indices_append, indices_cons, List.mem_append, List.mem_cons] at hj
      rcases hj with hj | rfl | rfl | hj
      exacts [.inl (hpre j hj), .inl (hself hoff), .inr hnew.ge, .inr (hpost j hj)]
  · split at hj
    · simp only [indices_append, List.mem_append] at hj
      rcases hj with hj | hj
      exacts [.inl (hlive j hj), .inr (hpost j hj)]
    next hoff =>
    simp only [indices_append, indices_cons, List.mem_append, List.mem_cons] at hj
    rcases hj with hj | rfl | hj
    exacts [.inl (hpre j hj), .inl (hself hoff), .inr (hpost j hj)]

theorem copyFragment_eq (s : Defrag) (p : Packet) (hin : p.InBuffer) (hlen : 0 ≤ p.len) :
    copyFragment s p = some { s with
      pktBuff := s.pktBuff.copy (ipHdrSize + p.start) (Mem.ofList p.bytes) ipHdrSize p.len.toNat } := by
  have hbytes := p.ipLen_le
  have hlenEq : p.len = be16 p.bytes 2 - ipHdrSize := rfl
  have hstop := hin.2
  unfold ipMaxudp at hstop
  rw [copyFragment, if_neg]
  unfold ipPktsize ipHdrSize at *
  omega

/-- What a fragment that fills holes leaves behind. -/
structure Filled (s : Defrag) (p : Packet) (i : Nat) (hs' : List Gap) (s' : Defrag) : Prop where
  good : hs' ≠ [] → Good s' hs'
  totalLen : s'.totalLen = if p.more then s.totalLen else p.stop.toNat
  data : ∀ k : Nat, (k : Int) < p.len →
    s'.pktBuff (ipHdrSize + p.start + k) = p.bytes.getD (ipHdrSize + k) 0
  frame : ∀ x : Nat, (x < ipHdrSize + p.start ∨ ipHdrSize + p.stop ≤ x) →
    (∀ j ∈ i :: indices hs', x < holeAddr j ∨ holeAddr j + 8 ≤ x) → s'.pktBuff x = s.pktBuff x

/-- The fragment is copied behind a list that was fixed. -/
theorem Struck.filled (h : Struck s p pre i last post) {s' : Defrag}
    (hfixed : Fixed (truncateHole s p i) s' i (fillHole pre i last post p)) :
    Filled s p i (fillHole pre i last post p) { s' with
      pktBuff := s'.pktBuff.copy (ipHdrSize + p.start) (Mem.ofList p.bytes) ipHdrSize p.len.toNat } := by
  have hstop : p.stop = p.start + p.len := rfl
  refine ⟨fun hne => ⟨hne, h.shape, (hfixed.linked hne).congr fun j hj => ?_, hfixed.first hne⟩, ?_,
    fun k hk => ?_, fun x hx hj => ?_⟩
  · have hapart := h.apart j hj
    refine hole_congr fun x hx hx' => Mem.copy_apply_out ?_
    unfold holeAddr ipHdrSize at *
    omega
  · dsimp only
    rw [hfixed.totalLen, truncateHole]
    split <;> rfl
  · show (s'.pktBuff.copy _ _ _ _) _ = _
    rw [Mem.copy_apply_in (by omega) (by omega), Nat.add_sub_cancel_left]
    rfl
  show (s'.pktBuff.copy _ _ _ _) _ = _
  rw [Mem.copy_apply_out (by omega), hfixed.untouched x hj, truncateHole]
  split
  · rfl
  · have := hj i (.head _)
    exact Mem.set16_apply_ne (by omega)

/-- A fragment that ends before the next hole ends before all of them. -/
theorem stop_le_of_head (h : Shape (pre ++ (i, last) :: post))
    (hnext : ∀ b ∈ post.head?, p.stop ≤ (8 * b.1 : Nat)) :
    ∀ b ∈ post, p.stop ≤ (8 * b.1 : Nat) := by
  have hpost : Shape post := h.sublist ((List.sublist_cons_self _ _).trans (List.sublist_append_right _ _))
  cases post with
  | nil => exact fun b hb => absurd hb List.not_mem_nil
  | cons c post =>
    have hc : p.stop ≤ (8 * c.1 : Nat) := hnext c rfl
    intro b hb
    rcases List.mem_cons.mp hb with rfl | hb
    · exact hc
    · have hsorted := (List.pairwise_cons.mp hpost.sorted).1 b hb
      have hroom := hpost.room c (.head _)
      omega

/-- **`__NetDefragment` fills the holes** that its list in the buffer describes. -/
theorem netDefragment_fill (h : Good s hs) (hfresh : ¬ s.Fresh p) (hin : p.InBuffer)
    (hgentle : Gentle hs p) :
    (fill hs p = none → netDefragment s p = some (none, s)) ∧
    ∀ hs', fill hs p = some hs' → ∃ i last, (holesFrom hs p).head? = some (i, last) ∧ p.start ≤ last ∧
      p.Overlaps i ∧ ∃ s', Filled s p i hs' s' ∧
      netDefragment s p = some (if hs' = [] then (some (complete s').1, (complete s').2) else (none, s')) := by
  have hnot : ¬ (p.stop < 0 ∨ (ipMaxudp : Int) < p.stop) := by
    have := hin.1
    have := hin.2
    omega
  have hwalk := h.walk_eq p.start
  rw [show (hs.dropWhile fun h => decide (h.2 < p.start)) = holesFrom hs p from rfl] at hwalk
  rw [netDefragment, if_neg hnot]
  simp only [if_neg hfresh, hwalk]
  cases hfrom : holesFrom hs p with
  | nil =>
    simp only [fill, hfrom]
    exact ⟨fun _ => rfl, fun hs' hfill => absurd hfill.symm (Option.some_ne_none hs')⟩
  | cons g post =>
    obtain ⟨i, last⟩ := g
    have hsplit : hs = holesBefore hs p ++ (i, last) :: post := by
      rw [← hfrom, holesBefore_append_holesFrom]
    have hstart : p.start ≤ last := by
      have hhead := List.head?_dropWhile_not (fun h : Gap => decide (h.2 < p.start)) hs
      rw [show (hs.dropWhile fun h => decide (h.2 < p.start)) = holesFrom hs p from rfl,
        hfrom] at hhead
      simpa using hhead
    simp only [fill, hfrom, List.head?_cons, Option.map_some]
    by_cases hover : p.Overlaps i
    · have hgentle' := hgentle
      rw [Gentle, hfrom] at hgentle'
      obtain ⟨hlen, hnext, hdesc⟩ := hgentle' hover
      have hstruck : Struck s p (holesBefore hs p) i last post := by
        refine ⟨hsplit ▸ h, fun a ha => ?_, hstart, hin, hover, hlen, fun b hb => ?_, hdesc⟩
        · have hbefore := List.mem_takeWhile_imp ha
          simpa using hbefore
        · exact (stop_le_of_head (hsplit ▸ h.shape) hnext) b hb
      rw [if_pos hover, if_neg (by unfold Packet.Overlaps at hover; omega)]
      obtain ⟨s', hfix, hfixed⟩ := fixHoles_fixed hstruck
      simp only [hfix, copyFragment_eq s' p hin hlen]
      refine ⟨fun hfill => absurd hfill (Option.some_ne_none _), fun hs' hfill => ?_⟩
      obtain rfl := Option.some.inj hfill
      refine ⟨i, last, rfl, hstart, hover, _, hstruck.filled hfixed, ?_⟩
      by_cases hdone : fillHole (holesBefore hs p) i last post p = []
      · rw [if_pos hdone, decide_eq_true hdone]
        rfl
      · rw [if_neg hdone, decide_eq_false hdone]
        rfl
    · rw [if_neg hover, if_pos (by unfold Packet.Overlaps at hover; omega)]
      exact ⟨fun _ => rfl, fun hs' hfill => absurd hfill.symm (Option.some_ne_none hs')⟩

end Filling

end Net
