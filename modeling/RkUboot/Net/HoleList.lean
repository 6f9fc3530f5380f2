import RkUboot.Net.Defrag
import RkUboot.Lib.DoublyLinked

set_option autoImplicit false

/-! # The hole list in the packet buffer

`Good s hs` says that the static variables hold the holes `hs`, each given by the number of its
first block and by the byte where it ends: the descriptors are in the buffer, one behind the other,
and linked. The operations of the code on the list (a hole is removed, moved, split or shortened)
are followed first on the descriptors as a function of the block, then in memory.

A hole at block 0 is taken for no hole by the one behind it; `live` are the holes before one that
are left when it is removed or moved. -/

namespace Net

open DoublyLinked

/-! ## Descriptors -/

/-- `struct hole` -/
structure Hole where
  last : Nat
  next : Nat
  prev : Nat

/-- The descriptor at block `i`. -/
def hole (m : Mem) (i : Nat) : Hole := ⟨lastByte m i, nextHole m i, prevHole m i⟩

section Descriptors

variable {m m' : Mem} {i j v : Nat}

theorem hole_congr (h : m.AgreeOn m' (holeAddr i) (holeAddr i + 8)) : hole m i = hole m' i := by
  unfold hole lastByte nextHole prevHole
  rw [(h.mono (by omega) (by omega)).u16, (h.mono (by omega) (by omega)).u16,
    (h.mono (by omega) (by omega)).u16]

/-- A field of descriptor `j` is no part of another one. -/
theorem hole_set16 {k : Nat} {h : Hole} (hk : k + 2 ≤ 8)
    (hj : hole (m.set16 (holeAddr j + k) v) j = h) :
    hole (m.set16 (holeAddr j + k) v) = Function.update (hole m) j h := by
  funext i
  rw [Function.update_apply]
  split
  · next heq => rw [heq, hj]
  · next hne =>
      refine hole_congr fun x hx hx' => Mem.set16_apply_ne ?_
      unfold holeAddr at *
      omega

theorem hole_setLastByte (m : Mem) (j v : Nat) :
    hole (setLastByte m j v) = Function.update (hole m) j ⟨v % 65536, (hole m j).next, (hole m j).prev⟩ :=
  hole_set16 (k := 0) (by omega) (Hole.mk.injEq .. |>.mpr ⟨Mem.u16_set16_same ..,
    Mem.u16_set16_ne _ _ _ _ (by omega), Mem.u16_set16_ne _ _ _ _ (by omega)⟩)

theorem hole_setNextHole (m : Mem) (j v : Nat) :
    hole (setNextHole m j v) = Function.update (hole m) j ⟨(hole m j).last, v % 65536, (hole m j).prev⟩ :=
  hole_set16 (by omega) (Hole.mk.injEq .. |>.mpr ⟨Mem.u16_set16_ne _ _ _ _ (by omega),
    Mem.u16_set16_same .., Mem.u16_set16_ne _ _ _ _ (by omega)⟩)

theorem hole_setPrevHole (m : Mem) (j v : Nat) :
    hole (setPrevHole m j v) = Function.update (hole m) j ⟨(hole m j).last, (hole m j).next, v % 65536⟩ :=
  hole_set16 (by omega) (Hole.mk.injEq .. |>.mpr ⟨Mem.u16_set16_ne _ _ _ _ (by omega),
    Mem.u16_set16_ne _ _ _ _ (by omega), Mem.u16_set16_same ..⟩)

/-- `*newh = *h` -/
theorem hole_copy (m : Mem) (new i : Nat) :
    hole (m.copy (holeAddr new) m (holeAddr i) 8) = Function.update (hole m) new (hole m i) := by
  funext j
  rw [Function.update_apply]
  split
  · next heq =>
      subst heq
      unfold hole lastByte nextHole prevHole Mem.u16
      simp only [Nat.add_assoc, Nat.reduceAdd]
      rw [Mem.copy_apply_in (by omega) (by omega),
        Mem.copy_apply_in (by omega) (by omega),
        Mem.copy_apply_in (by omega) (by omega), Mem.copy_apply_in (by omega) (by omega),
        Mem.copy_apply_in (by omega) (by omega), Mem.copy_apply_in (by omega) (by omega)]
      simp only [Nat.add_sub_cancel_left, Nat.sub_self, Nat.add_zero]
  · next hne =>
      refine hole_congr fun x hx hx' => Mem.copy_apply_out ?_
      unfold holeAddr at *
      omega

end Descriptors

/-! ## Lists of holes -/

/-- A hole: its first block, and the byte where it ends. -/
abbrev Gap := Nat × Nat

/-- The numbers of the holes. -/
def indices (hs : List Gap) : List Nat := hs.map Prod.fst

@[simp] theorem indices_nil : indices [] = [] := rfl

@[simp] theorem indices_cons (h : Gap) (hs : List Gap) : indices (h :: hs) = h.1 :: indices hs := rfl

@[simp] theorem indices_append (xs ys : List Gap) : indices (xs ++ ys) = indices xs ++ indices ys :=
  List.map_append

/-- A segment of descriptors. -/
abbrev HoleSeg (d : Nat → Hole) : Nat → List Nat → Nat → Prop :=
  Seg (fun i => (d i).next) (fun i => (d i).prev)

/-- Descriptors that are linked, with 0 at both ends. -/
structure Linked (d : Nat → Hole) (hs : List Gap) : Prop where
  seg : HoleSeg d 0 (indices hs) 0
  last : ∀ h ∈ hs, (d h.1).last = h.2

/-- The holes are in order, with room for their descriptors. -/
structure Shape (hs : List Gap) : Prop where
  slot : ∀ h ∈ hs, h.1 < holeSlots
  room : ∀ h ∈ hs, 8 * h.1 + 8 ≤ h.2
  last_le : ∀ h ∈ hs, h.2 ≤ 65535
  last_mod : ∀ h ∈ hs, h.2 % 8 = 0 ∨ h.2 = 65535
  sorted : hs.Pairwise fun a b => a.2 ≤ 8 * b.1

/-- The static variables hold the holes `hs`. -/
structure Good (s : Defrag) (hs : List Gap) : Prop where
  ne : hs ≠ []
  shape : Shape hs
  linked : Linked (hole s.pktBuff) hs
  first : s.firstHole = (indices hs).headD 0

section Lists

variable {hs pre post : List Gap} {i last : Nat} {s : Defrag}

theorem Shape.before (h : Shape (pre ++ (i, last) :: post)) : ∀ a ∈ pre, a.2 ≤ 8 * i := by
  intro a ha
  exact (List.pairwise_append.mp h.sorted).2.2 a ha (i, last) (.head _)

theorem Shape.behind (h : Shape (pre ++ (i, last) :: post)) : ∀ b ∈ post, last ≤ 8 * b.1 := by
  intro b hb
  exact (List.pairwise_cons.mp (List.pairwise_append.mp h.sorted).2.1).1 b hb

theorem Shape.indices_lt (h : Shape hs) : (indices hs).Pairwise (· < ·) := by
  rw [indices, List.pairwise_map]
  refine h.sorted.imp_of_mem fun {a b} ha _ hab => ?_
  have := h.room a ha
  omega

theorem Shape.nodup (h : Shape hs) : (indices hs).Nodup := h.indices_lt.imp Nat.ne_of_lt

/-- No hole but the first one is at block 0. -/
theorem Shape.pos_of_behind {a : Gap} (h : Shape (a :: hs)) : ∀ b ∈ hs, 0 < b.1 := by
  intro b hb
  have hroom := h.room a (.head _)
  have := (List.pairwise_cons.mp h.sorted).1 b hb
  omega

theorem Shape.length_le (h : Shape hs) : hs.length ≤ holeSlots := by
  have hsub : (indices hs) ⊆ List.range holeSlots := by
    intro x hx
    obtain ⟨a, ha, rfl⟩ := List.mem_map.mp hx
    exact List.mem_range.mpr (h.slot a ha)
  have := (h.nodup.subperm hsub).length_le
  rwa [List.length_range, indices, List.length_map] at this

/-- The walk finds the first hole that does not end before the fragment. -/
theorem walk_eq {d : Mem} (start fuel p : Nat) (h : Shape hs) (hne : hs ≠ [])
    (hfuel : hs.length ≤ fuel)
    (hseg : HoleSeg (hole d) p (indices hs) 0)
    (hlast : ∀ h ∈ hs, (hole d h.1).last = h.2) :
    walk d start fuel ((indices hs).headD 0)
      = some ((hs.dropWhile fun h => decide (h.2 < start)).head?.map Prod.fst) := by
  induction hs generalizing fuel p with
  | nil => exact absurd rfl hne
  | cons a hs ih =>
    obtain ⟨i, last⟩ := a
    cases fuel with
    | zero => cases hfuel
    | succ fuel =>
      have hslot := h.slot (i, last) (.head _)
      have hlastByte : lastByte d i = last := hlast (i, last) (.head _)
      obtain ⟨-, hnext, hrest⟩ := hseg
      have hnext : nextHole d i = (indices hs).headD 0 := hnext
      show walk d start (fuel + 1) i = _
      rw [walk, if_neg (by exact Nat.not_le.mpr hslot), hlastByte, List.dropWhile_cons]
      by_cases hbefore : last < start
      · rw [if_pos hbefore, hnext, if_pos (decide_eq_true hbefore)]
        cases hs with
        | nil => rfl
        | cons b hs =>
          have hpos : b.1 ≠ 0 := Nat.pos_iff_ne_zero.mp
            (h.pos_of_behind b (.head _))
          rw [if_neg (by exact hpos)]
          refine ih fuel i ?_ nofun (by simpa using hfuel) hrest
            fun c hc => hlast c (.tail _ hc)
          exact ⟨fun c hc => h.slot c (.tail _ hc),
            fun c hc => h.room c (.tail _ hc),
            fun c hc => h.last_le c (.tail _ hc),
            fun c hc => h.last_mod c (.tail _ hc), (List.pairwise_cons.mp h.sorted).2⟩
      · rw [if_neg hbefore, if_neg (by simpa using hbefore)]
        rfl

theorem Good.walk_eq (h : Good s hs) (start : Nat) :
    walk s.pktBuff start holeSlots s.firstHole
      = some ((hs.dropWhile fun h => decide (h.2 < start)).head?.map Prod.fst) := by
  rw [h.first]
  exact Net.walk_eq start holeSlots 0 h.shape h.ne h.shape.length_le h.linked.seg h.linked.last

end Lists

/-! ## Changing descriptors -/

section Updates

variable {d : Nat → Hole} {p q x j v a b : Nat} {xs : List Nat}

theorem HoleSeg.update_next (h : HoleSeg d p xs q) (hne : xs ≠ []) (hnodup : xs.Nodup)
    (hj : xs.getLastD p = j) : HoleSeg (Function.update d j ⟨(d j).last, v, (d j).prev⟩) p xs v := by
  refine Seg.setNext h hne hnodup ?_ (fun y _ hy => ?_) fun y hy => ?_
  · rw [hj]
    rw [Function.update_self]
  · rw [hj] at hy
    rw [Function.update_of_ne hy]
  rw [Function.update_apply]
  split
  · next heq => rw [heq]
  · rfl

theorem HoleSeg.update_prev (h : HoleSeg d p (j :: xs) q) (hj : j ∉ xs) :
    HoleSeg (Function.update d j ⟨(d j).last, (d j).next, v⟩) v (j :: xs) q := by
  refine Seg.setPrev h ?_ (fun y hy => ?_) fun y hy => ?_
  · rw [Function.update_self]
  · rw [Function.update_apply]
    split
    · next heq => rw [heq]
    · rfl
  · rw [Function.update_of_ne (ne_of_mem_of_not_mem hy hj)]

/-- New links leave the ends of the holes alone. -/
theorem last_update (x : Nat) : (Function.update d j ⟨(d j).last, a, b⟩ x).last = (d x).last := by
  rw [Function.update_apply]
  split
  · next heq => rw [heq]
  · rfl

end Updates

/-- The holes before one that is removed or moved: one at block 0 is taken for none, and lost. -/
def live (pre : List Gap) : List Gap := if (indices pre).getLastD 0 = 0 then [] else pre

section Operations

variable {s : Defrag} {pre post : List Gap} {i last last' : Nat} {d : Nat → Hole}

/-- The descriptor of a hole and the ones before and behind it. -/
structure Between (d : Nat → Hole) (pre : List Gap) (i : Nat) (post : List Gap) : Prop where
  pre_seg : HoleSeg d 0 (indices pre) i
  prev_eq : (d i).prev = (indices pre).getLastD 0
  next_eq : (d i).next = (indices post).headD 0
  post_seg : HoleSeg d i (indices post) 0
  pre_lt : ∀ x ∈ indices pre, x < i
  slot : i < holeSlots
  post_gt : ∀ x ∈ indices post, i < x ∧ x < holeSlots
  pre_nodup : (indices pre).Nodup
  post_nodup : (indices post).Nodup
  last : ∀ h ∈ pre ++ post, (d h.1).last = h.2

variable {new : Nat} {x : Nat} (v : Nat)

theorem Linked.between (h : Linked d (pre ++ (i, last') :: post))
    (hshape : Shape (pre ++ (i, last) :: post)) :
    Between d pre i post := by
  have hseg := h.seg
  have hnodup := hshape.nodup
  rw [indices_append, indices_cons, HoleSeg, seg_middle] at hseg
  rw [indices_append, indices_cons, List.nodup_append, List.nodup_cons] at hnodup
  refine ⟨hseg.1, hseg.2.1, hseg.2.2.1, hseg.2.2.2, fun x hx => ?_,
    hshape.slot (i, last) (List.mem_append_right _ (.head _)), fun x hx => ?_, hnodup.1,
    hnodup.2.1.2, fun g hg => ?_⟩
  · obtain ⟨a, ha, rfl⟩ := List.mem_map.mp hx
    have := hshape.before a ha
    have := hshape.room a (List.mem_append_left _ ha)
    omega
  · obtain ⟨b, hb, rfl⟩ := List.mem_map.mp hx
    have hlast := hshape.behind b hb
    have hroom := hshape.room (i, last) (List.mem_append_right _ (.head _))
    have hslot := hshape.slot b (List.mem_append_right _ (.tail _ hb))
    omega
  · refine h.last g ?_
    rcases List.mem_append.mp hg with hg | hg
    · exact List.mem_append_left _ hg
    · exact List.mem_append_right _ (.tail _ hg)

/-- Holes `l` are put in the place of the hole. -/
theorem Between.last_of {d' : Nat → Hole} {l : List Gap} (h : Between d pre i post)
    (hpre : ∀ x ∈ indices pre, d' x = d x) (hpost : ∀ x ∈ indices post, d' x = d x)
    (hmid : ∀ g ∈ l, (d' g.1).last = g.2) : ∀ g ∈ pre ++ (l ++ post), (d' g.1).last = g.2 := by
  intro g hg
  rcases List.mem_append.mp hg with hg | hg
  · rw [hpre _ (List.mem_map_of_mem hg)]
    exact h.last g (List.mem_append_left _ hg)
  rcases List.mem_append.mp hg with hg | hg
  · exact hmid g hg
  · rw [hpost _ (List.mem_map_of_mem hg)]
    exact h.last g (List.mem_append_right _ hg)

/-- The last of the holes before, if it is not at block 0. -/
theorem last_mem (hq : (indices pre).getLastD 0 ≠ 0) : (indices pre).getLastD 0 ∈ indices pre := by
  cases h : indices pre with
  | nil => rw [h] at hq; exact absurd rfl hq
  | cons x xs =>
    rw [List.getLastD_cons]
    exact List.getLastD_mem_cons

theorem Between.prev_lt (h : Between d pre i post) : (d i).prev < holeSlots := by
  rw [h.prev_eq]
  by_cases hq : (indices pre).getLastD 0 = 0
  · rw [hq]
    decide
  · exact lt_trans (h.pre_lt _ (last_mem hq)) h.slot

theorem Between.next_eq_zero (h : Between d pre i post) : (d i).next = 0 ↔ post = [] := by
  rw [h.next_eq]
  cases post with
  | nil => simp
  | cons b post =>
    have := (h.post_gt b.1 (.head _)).1
    simp
    omega

theorem Between.next_lt (h : Between d pre i post) : (d i).next < holeSlots := by
  rw [h.next_eq]
  cases post with
  | nil => decide
  | cons b post => exact (h.post_gt b.1 (.head _)).2

theorem mod_of_slot (hx : x < holeSlots) : x % 65536 = x :=
  Nat.mod_eq_of_lt (lt_of_lt_of_le hx (by decide))

/-- Hole `q`, if it is one, is linked to `v`. -/
def relinkPrev (d : Nat → Hole) (q v : Nat) : Nat → Hole :=
  if q = 0 then d else Function.update d q ⟨(d q).last, v, (d q).prev⟩

/-- Hole `n`, if it is one, is linked back to `v`. -/
def relinkNext (d : Nat → Hole) (n v : Nat) : Nat → Hole :=
  if n = 0 then d else Function.update d n ⟨(d n).last, (d n).next, v⟩

theorem relinkPrev_apply (q v x : Nat) (hx : x ≠ q) : relinkPrev d q v x = d x := by
  unfold relinkPrev
  split
  · rfl
  · exact Function.update_of_ne hx _ _

theorem relinkNext_apply (n v x : Nat) (hx : n ≠ 0 → x ≠ n) : relinkNext d n v x = d x := by
  unfold relinkNext
  split
  · rfl
  · next hn => exact Function.update_of_ne (hx hn) _ _

theorem relinkPrev_last (q v x : Nat) : (relinkPrev d q v x).last = (d x).last := by
  unfold relinkPrev
  split
  · rfl
  · exact last_update x

theorem relinkNext_last (n v x : Nat) : (relinkNext d n v x).last = (d x).last := by
  unfold relinkNext
  split
  · rfl
  · exact last_update x

theorem HoleSeg.out_of_eq {d' : Nat → Hole} {p q : Nat} {xs : List Nat} (h : HoleSeg d p xs q)
    (hd' : ∀ x ∈ xs, d' x = d x) : HoleSeg d' p xs q :=
  Seg.congr h (fun x hx => by rw [hd' x hx]) fun x hx => by rw [hd' x hx]

/-- The holes before, linked to `v`. -/
theorem HoleSeg.relinkPrev (h : HoleSeg d 0 (indices pre) x) (hnodup : (indices pre).Nodup) :
    HoleSeg (Net.relinkPrev d ((indices pre).getLastD 0) v) 0 (indices (live pre)) v := by
  unfold live Net.relinkPrev
  split
  · trivial
  · next hq => exact HoleSeg.update_next h (List.ne_nil_of_mem (last_mem hq)) hnodup rfl

/-- The holes behind, linked back to `v`. -/
theorem HoleSeg.relinkNext (h : HoleSeg d x (indices post) 0)
    (hnodup : (indices post).Nodup) (hpos : ∀ y ∈ indices post, y ≠ 0) :
    HoleSeg (Net.relinkNext d ((indices post).headD 0) v) v (indices post) 0 := by
  cases post with
  | nil => trivial
  | cons b post =>
    have hb : b.1 ≠ 0 := hpos b.1 (.head _)
    show HoleSeg (Net.relinkNext d b.1 v) v (b.1 :: indices post) 0
    rw [Net.relinkNext, if_neg hb]
    exact HoleSeg.update_prev h (List.nodup_cons.mp hnodup).1

theorem live_getLastD (pre : List Gap) :
    (indices (live pre)).getLastD 0 = (indices pre).getLastD 0 := by
  unfold live
  split
  · next hq => rw [hq]; rfl
  · rfl

theorem mem_of_live {h : Gap} (hh : h ∈ live pre) : h ∈ pre := by
  unfold live at hh
  split at hh
  · cases hh
  · exact hh

/-- The last hole before is none of those behind. -/
theorem Between.prev_not_mem (h : Between d pre i post) : ∀ x ∈ indices post, x ≠ (d i).prev := by
  intro x hx heq
  have hgt := (h.post_gt x hx).1
  rw [heq, h.prev_eq] at hgt
  by_cases hq : (indices pre).getLastD 0 = 0
  · omega
  · have := h.pre_lt _ (last_mem hq)
    omega

theorem Between.next_not_mem (h : Between d pre i post) (hne : (d i).next ≠ 0) :
    ∀ x ∈ indices pre, x ≠ (d i).next := by
  intro x hx heq
  have hlt := h.pre_lt x hx
  cases post with
  | nil => exact hne h.next_eq
  | cons b post =>
    have hgt := (h.post_gt b.1 (.head _)).1
    have hnext : (d i).next = b.1 := h.next_eq
    omega

theorem Between.relinkNext_pre (h : Between d pre i post) :
    ∀ x ∈ indices pre, relinkNext d (d i).next v x = d x := by
  exact fun x hx => relinkNext_apply _ _ _ fun hne => h.next_not_mem hne x hx

/-- The list without the hole. -/
theorem Between.remove (h : Between d pre i post) :
    Linked (relinkPrev (relinkNext d (d i).next (d i).prev) (d i).prev (d i).next) (live pre ++ post) := by
  refine ⟨?_, fun g hg => ?_⟩
  · rw [indices_append, HoleSeg, seg_append, live_getLastD, ← h.prev_eq, ← h.next_eq]
    refine ⟨?_, ?_⟩
    · rw [h.prev_eq]
      exact HoleSeg.relinkPrev _ (h.pre_seg.out_of_eq (h.prev_eq ▸ h.relinkNext_pre _)) h.pre_nodup
    refine HoleSeg.out_of_eq (d := relinkNext d (d i).next (d i).prev) ?_ fun x hx =>
      relinkPrev_apply _ _ _ (h.prev_not_mem x hx)
    rw [h.next_eq]
    exact HoleSeg.relinkNext _ h.post_seg h.post_nodup fun y hy => by
      have := (h.post_gt y hy).1
      omega
  · rw [relinkPrev_last, relinkNext_last]
    refine h.last g ?_
    rcases List.mem_append.mp hg with hg | hg
    · exact List.mem_append_left _ (mem_of_live hg)
    · exact List.mem_append_right _ hg

theorem Between.post_ne_zero (h : Between d pre i post) : ∀ x ∈ indices post, x ≠ 0 := by
  intro x hx
  have := (h.post_gt x hx).1
  omega

/-- The block `new` lies behind hole `i` and before the next one. -/
structure Between.Fits (h : Between d pre i post) (new : Nat) : Prop where
  gt : i < new
  lt : ∀ x ∈ indices post, new < x

theorem Between.Fits.ne_prev {h : Between d pre i post} (hnew : h.Fits new) : new ≠ (d i).prev := by
  rw [h.prev_eq]
  have := hnew.gt
  by_cases hq : (indices pre).getLastD 0 = 0
  · omega
  · have := h.pre_lt _ (last_mem hq)
    omega

theorem Between.Fits.ne_next {h : Between d pre i post} (hnew : h.Fits new) : new ≠ (d i).next := by
  have hgt := hnew.gt
  rw [h.next_eq]
  cases post with
  | nil => exact Nat.ne_of_gt (Nat.zero_lt_of_lt hgt)
  | cons b post => exact Nat.ne_of_lt (hnew.lt b.1 (.head _))

/-- The list with the hole moved to `new`. -/
theorem Between.move (h : Between d pre i post) (hnew : h.Fits new) :
    Linked (relinkPrev (relinkNext (Function.update d new (d i)) (d i).next new) (d i).prev new)
      (live pre ++ (new, (d i).last) :: post) := by
  have hpreNew : ∀ x ∈ indices pre, x ≠ new := fun x hx => by
    have := h.pre_lt x hx
    have := hnew.gt
    omega
  have hpostNew : ∀ x ∈ indices post, x ≠ new := fun x hx => Nat.ne_of_gt (hnew.lt x hx)
  have hat : relinkPrev (relinkNext (Function.update d new (d i)) (d i).next new) (d i).prev new new = d i := by
    rw [relinkPrev_apply _ _ _ hnew.ne_prev, relinkNext_apply _ _ _ (fun _ => hnew.ne_next),
      Function.update_self]
  refine ⟨?_, fun g hg => ?_⟩
  · rw [indices_append, indices_cons, HoleSeg, seg_middle, live_getLastD]
    rw [hat]
    refine ⟨?_, h.prev_eq, h.next_eq, ?_⟩
    · rw [h.prev_eq]
      refine HoleSeg.relinkPrev _ (HoleSeg.out_of_eq h.pre_seg fun x hx => ?_) h.pre_nodup
      rw [relinkNext_apply _ _ _ fun hne => h.next_not_mem hne x hx,
        Function.update_of_ne (hpreNew x hx)]
    · refine HoleSeg.out_of_eq (d := relinkNext (Function.update d new (d i)) (d i).next new) ?_ fun x hx =>
        relinkPrev_apply _ _ _ (h.prev_not_mem x hx)
      rw [h.next_eq]
      refine HoleSeg.relinkNext _ (HoleSeg.out_of_eq h.post_seg fun x hx => ?_) h.post_nodup h.post_ne_zero
      exact Function.update_of_ne (hpostNew x hx) _ _
  · rw [relinkPrev_last, relinkNext_last]
    refine h.last_of (l := [(new, (d i).last)]) (fun x hx => Function.update_of_ne (hpreNew x hx) _ _)
      (fun x hx => Function.update_of_ne (hpostNew x hx) _ _) (by simp) g ?_
    exact List.mem_append.mpr ((List.mem_append.mp hg).imp_left mem_of_live)

/-- The list with the hole split: it ends at `start`, and its rest is at `new`. -/
theorem Between.split {new start : Nat} (h : Between d pre i post) (hnew : h.Fits new) :
    Linked (relinkNext (Function.update (Function.update d i ⟨start, new, (d i).prev⟩) new
      ⟨(d i).last, (d i).next, i⟩) (d i).next new) (pre ++ (i, start) :: (new, (d i).last) :: post) := by
  have hgt := hnew.gt
  have hni : (d i).next ≠ 0 → i ≠ (d i).next := by
    rw [h.next_eq]
    cases post with
    | nil => exact fun hne => absurd rfl hne
    | cons b post => exact fun _ => Nat.ne_of_lt (h.post_gt b.1 (.head _)).1
  generalize hd' : Function.update (Function.update d i ⟨start, new, (d i).prev⟩) new
    ⟨(d i).last, (d i).next, i⟩ = d'
  have hi : d' i = ⟨start, new, (d i).prev⟩ := by
    rw [← hd', Function.update_of_ne (Nat.ne_of_lt hgt), Function.update_self]
  have hn : d' new = ⟨(d i).last, (d i).next, i⟩ := by rw [← hd', Function.update_self]
  have hout : ∀ x, x ≠ i → x ≠ new → d' x = d x := fun x hxi hxn => by
    rw [← hd', Function.update_of_ne hxn, Function.update_of_ne hxi]
  have hpreOut : ∀ x ∈ indices pre, d' x = d x := fun x hx => by
    have := h.pre_lt x hx
    exact hout x (by omega) (by omega)
  have hpostOut : ∀ x ∈ indices post, d' x = d x := fun x hx =>
    hout x (Nat.ne_of_gt (h.post_gt x hx).1) (Nat.ne_of_gt (hnew.lt x hx))
  refine ⟨?_, fun g hg => ?_⟩
  · rw [indices_append, indices_cons, indices_cons, HoleSeg, seg_middle]
    rw [relinkNext_apply _ _ _ hni, hi]
    refine ⟨?_, h.prev_eq, rfl, ?_, ?_, ?_⟩
    · refine HoleSeg.out_of_eq h.pre_seg fun x hx => ?_
      rw [relinkNext_apply _ _ _ fun hne => h.next_not_mem hne x hx, hpreOut x hx]
    · dsimp only
      rw [relinkNext_apply _ _ _ fun _ => hnew.ne_next, hn]
    · dsimp only
      rw [relinkNext_apply _ _ _ fun _ => hnew.ne_next, hn]
      exact h.next_eq
    · rw [h.next_eq]
      exact HoleSeg.relinkNext _ (h.post_seg.out_of_eq hpostOut) h.post_nodup h.post_ne_zero
  · rw [relinkNext_last]
    refine h.last_of (l := [(i, start), (new, (d i).last)]) hpreOut hpostOut ?_ g hg
    simp [hi, hn]

/-- The list with the hole shortened. -/
theorem Between.shorten {start : Nat} (h : Between d pre i post) :
    Linked (Function.update d i ⟨start, (d i).next, (d i).prev⟩) (pre ++ (i, start) :: post) := by
  have hpreOut : ∀ x ∈ indices pre, Function.update d i ⟨start, (d i).next, (d i).prev⟩ x = d x := fun x hx =>
    Function.update_of_ne (Nat.ne_of_lt (h.pre_lt x hx)) _ _
  have hpostOut : ∀ x ∈ indices post, Function.update d i ⟨start, (d i).next, (d i).prev⟩ x = d x := fun x hx =>
    Function.update_of_ne (Nat.ne_of_gt (h.post_gt x hx).1) _ _
  refine ⟨?_, fun g hg => ?_⟩
  · rw [indices_append, indices_cons, HoleSeg, seg_middle]
    rw [Function.update_self]
    exact ⟨h.pre_seg.out_of_eq hpreOut, h.prev_eq, h.next_eq, h.post_seg.out_of_eq hpostOut⟩
  · refine h.last_of (l := [(i, start)]) hpreOut hpostOut ?_ g hg
    simp

end Operations

/-! ## The operations of the code -/

section Code

variable {s : Defrag} {m m' : Mem} {i new : Nat}

/-- The descriptors of the blocks `xs` apart, the memory stays as it is. -/
def Untouched (m m' : Mem) (xs : List Nat) : Prop :=
  ∀ x, (∀ j ∈ xs, x < holeAddr j ∨ holeAddr j + 8 ≤ x) → m' x = m x

variable {xs : List Nat}

theorem Untouched.refl (m : Mem) (xs : List Nat) : Untouched m m xs := fun _ _ => rfl

theorem Untouched.set16 {j k v : Nat} (h : Untouched m m' xs) (hj : j ∈ xs)
    (hk : k + 2 ≤ 8) : Untouched m (m'.set16 (holeAddr j + k) v) xs := by
  intro x hx
  have hout := hx j hj
  rw [Mem.set16_apply_ne (by omega)]
  exact h x hx

theorem Untouched.copy {j a : Nat} {src : Mem} (h : Untouched m m' xs) (hj : j ∈ xs) :
    Untouched m (m'.copy (holeAddr j) src a 8) xs := by
  intro x hx
  have hout := hx j hj
  rw [Mem.copy_apply_out (by omega)]
  exact h x hx

/-- `next_hole` of hole `q`, if it is one. -/
def linkNext (m : Mem) (q v : Nat) : Mem := if q = 0 then m else setNextHole m q v

/-- `prev_hole` of hole `n`, if it is one. -/
def linkPrev (m : Mem) (n v : Nat) : Mem := if n = 0 then m else setPrevHole m n v

theorem hole_linkNext (q : Nat) {v : Nat} (hv : v < holeSlots) :
    hole (linkNext m q v) = relinkPrev (hole m) q v := by
  unfold linkNext relinkPrev
  split
  · rfl
  · rw [hole_setNextHole, mod_of_slot hv]

theorem hole_linkPrev (n : Nat) {v : Nat} (hv : v < holeSlots) :
    hole (linkPrev m n v) = relinkNext (hole m) n v := by
  unfold linkPrev relinkNext
  split
  · rfl
  · rw [hole_setPrevHole, mod_of_slot hv]

theorem Untouched.linkNext {q v : Nat} (h : Untouched m m' xs) (hq : q ≠ 0 → q ∈ xs) :
    Untouched m (linkNext m' q v) xs := by
  unfold Net.linkNext
  split
  · exact h
  · next hne => exact h.set16 (hq hne) (by omega)

theorem Untouched.linkPrev {n v : Nat} (h : Untouched m m' xs) (hn : n ≠ 0 → n ∈ xs) :
    Untouched m (linkPrev m' n v) xs := by
  unfold Net.linkPrev
  split
  · exact h
  · next hne => exact h.set16 (hn hne) (by omega)

theorem removeHole_val (hq : prevHole s.pktBuff i < holeSlots)
    (hn : nextHole s.pktBuff i < holeSlots) :
    removeHole s i = some (decide (prevHole s.pktBuff i = 0 ∧ nextHole s.pktBuff i = 0),
      { s with
        firstHole := if prevHole s.pktBuff i = 0 ∧ nextHole s.pktBuff i ≠ 0 then nextHole s.pktBuff i
          else s.firstHole
        pktBuff := linkNext (linkPrev s.pktBuff (nextHole s.pktBuff i) (prevHole s.pktBuff i))
          (prevHole s.pktBuff i) (nextHole s.pktBuff i) }) := by
  unfold removeHole
  by_cases hqz : prevHole s.pktBuff i = 0
  · by_cases hnz : nextHole s.pktBuff i = 0
    · simp [hqz, hnz, linkNext, linkPrev]
    · rw [if_neg fun hz => hnz hz.2, if_pos hqz, if_neg (Nat.not_le.mpr hn), if_pos ⟨hqz, hnz⟩,
        linkNext,
        if_pos hqz, linkPrev, if_neg hnz, hqz, decide_eq_false fun hz => hnz hz.2]
  · by_cases hnz : nextHole s.pktBuff i = 0
    · rw [if_neg fun hz => hqz hz.1, if_neg hqz, if_pos hnz, if_neg (Nat.not_le.mpr hq),
        if_neg fun hz => hqz hz.1, linkNext, if_neg hqz, linkPrev, if_pos hnz, hnz,
        decide_eq_false fun hz => hqz hz.1]
    · rw [if_neg fun hz => hqz hz.1, if_neg hqz, if_neg hnz, if_neg (by omega),
        if_neg fun hz => hqz hz.1,
        linkNext, if_neg hqz, linkPrev, if_neg hnz, decide_eq_false fun hz => hqz hz.1]

theorem moveHole_val (hnew : new < holeSlots) (hq : prevHole s.pktBuff i < holeSlots)
    (hn : nextHole s.pktBuff i < holeSlots) (hne : new ≠ nextHole s.pktBuff i) :
    moveHole s i new = some (false,
      { s with
        firstHole := if prevHole s.pktBuff i = 0 then new else s.firstHole
        pktBuff := linkNext (linkPrev (s.pktBuff.copy (holeAddr new) s.pktBuff (holeAddr i) 8)
          (nextHole s.pktBuff i) new) (prevHole s.pktBuff i) new }) := by
  have hcopy : hole (s.pktBuff.copy (holeAddr new) s.pktBuff (holeAddr i) 8) new = hole s.pktBuff i := by
    rw [hole_copy, Function.update_self]
  have hnext : nextHole (s.pktBuff.copy (holeAddr new) s.pktBuff (holeAddr i) 8) new = nextHole s.pktBuff i :=
    congrArg Hole.next hcopy
  have hprev : prevHole (linkPrev (s.pktBuff.copy (holeAddr new) s.pktBuff (holeAddr i) 8)
      (nextHole s.pktBuff i) new) new = prevHole s.pktBuff i := by
    show (hole _ new).prev = _
    rw [hole_linkPrev _ hnew, relinkNext_apply _ _ _ fun _ => hne, hcopy]
    rfl
  have hlink : (if nextHole s.pktBuff i ≠ 0
      then setPrevHole (s.pktBuff.copy (holeAddr new) s.pktBuff (holeAddr i) 8) (nextHole s.pktBuff i) new
      else s.pktBuff.copy (holeAddr new) s.pktBuff (holeAddr i) 8)
      = linkPrev (s.pktBuff.copy (holeAddr new) s.pktBuff (holeAddr i) 8) (nextHole s.pktBuff i) new := by
    rw [linkPrev, ite_not]
  rw [moveHole, if_neg (Nat.not_le.mpr hnew)]
  dsimp only
  rw [hnext, if_neg (by omega), hlink, hprev]
  by_cases hqz : prevHole s.pktBuff i = 0
  · rw [if_pos hqz, if_pos hqz, linkNext, if_pos hqz]
  · rw [if_neg hqz, if_neg hqz, linkNext, if_neg hqz, if_neg (Nat.not_le.mpr hq)]

theorem splitHole_val (start : Nat) (hnew : new < holeSlots) (hn : nextHole s.pktBuff i < holeSlots)
    (hi : i < holeSlots)
    (hne : i ≠ new) (hstart : start < 65536) :
    ∃ m, splitHole s i new start = some (false, { s with pktBuff := linkPrev m (nextHole s.pktBuff i) new }) ∧
      hole m = Function.update (Function.update (hole s.pktBuff) i ⟨start, new, prevHole s.pktBuff i⟩) new
        ⟨lastByte s.pktBuff i, nextHole s.pktBuff i, i⟩ ∧
      Untouched s.pktBuff m [i, new] := by
  generalize hm : setPrevHole (setNextHole (setLastByte (s.pktBuff.copy (holeAddr new) s.pktBuff (holeAddr i) 8)
    i start) i new) new i = m
  have hhole : hole m = Function.update (Function.update (hole s.pktBuff) i
      ⟨start, new, prevHole s.pktBuff i⟩) new ⟨lastByte s.pktBuff i, nextHole s.pktBuff i, i⟩ := by
    rw [← hm, hole_setPrevHole, hole_setNextHole, hole_setLastByte, hole_copy, mod_of_slot hnew,
      mod_of_slot hi,
      Nat.mod_eq_of_lt hstart]
    funext x
    by_cases hxn : x = new
    · subst hxn
      simp [Function.update_of_ne (Ne.symm hne), hole]
    by_cases hxi : x = i
    · subst hxi
      simp [Function.update_of_ne hne, hole]
    · simp [Function.update_of_ne hxn, Function.update_of_ne hxi]
  have hnext : nextHole m new = nextHole s.pktBuff i := by
    show (hole m new).next = _
    rw [hhole, Function.update_self]
  refine ⟨m, ?_, hhole, ?_⟩
  · rw [splitHole, if_neg (Nat.not_le.mpr hnew)]
    dsimp only
    rw [hm, hnext, linkPrev]
    by_cases hnz : nextHole s.pktBuff i = 0
    · rw [if_pos hnz, if_pos hnz]
    · rw [if_neg hnz, if_neg hnz, if_neg (Nat.not_le.mpr hn)]
  · rw [← hm]
    refine (((Untouched.refl _ _).copy ?_).set16 (k := 0) ?_ ?_).set16 ?_ ?_ |>.set16 ?_ ?_ <;> simp

end Code

end Net
