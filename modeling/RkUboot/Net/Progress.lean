import RkUboot.Net.Safety

set_option autoImplicit false

/-! # What is missing of a packet

A payload arrives in fragments, each of them once and in any order. The holes in the buffer are what
is missing, except for what becomes of a hole at block 0: its index reads as "no hole before". A
fragment that starts the second hole while the first one is at block 0 removes or moves the second
one, and with it the first one is lost. The step lemma is `Progress.step`. -/

namespace Net

/-! ## Bytes in holes -/

/-- Byte `x` of the payload is in a hole. -/
def InHole (hs : List Gap) (x : Nat) : Prop := ∃ g ∈ hs, 8 * g.1 ≤ x ∧ x < g.2

/-- There is something between the holes. -/
def Strict (hs : List Gap) : Prop := hs.Pairwise fun a b => a.2 < 8 * b.1

section InHole

variable {hs pre post : List Gap} {x : Nat}

theorem inHole_nil : ¬ InHole [] x := by
  rintro ⟨g, hg, -⟩
  cases hg

theorem inHole_cons (g : Gap) : InHole (g :: hs) x ↔ (8 * g.1 ≤ x ∧ x < g.2) ∨ InHole hs x := by
  unfold InHole
  simp only [List.mem_cons, exists_eq_or_imp]

theorem inHole_append (xs ys : List Gap) : InHole (xs ++ ys) x ↔ InHole xs x ∨ InHole ys x := by
  unfold InHole
  simp only [List.mem_append, or_and_right, exists_or]

/-- Bytes that are all in holes are in one hole. -/
theorem Strict.stop_le (h : Strict hs) {g : Gap} (hg : g ∈ hs) {a b : Nat} (ha : 8 * g.1 ≤ a)
    (ha' : a < g.2) (hall : ∀ x, a ≤ x → x < b → InHole hs x) : b ≤ g.2 := by
  by_contra hlt
  obtain ⟨g', hg', hlow, hhigh⟩ := hall g.2 (by omega) (by omega)
  obtain ⟨pre, post, rfl⟩ := List.append_of_mem hg
  obtain ⟨-, hpost, hpre⟩ := List.pairwise_append.mp h
  rcases List.mem_append.mp hg' with hmem | hmem
  · have := hpre g' hmem g (.head _)
    omega
  rcases List.mem_cons.mp hmem with rfl | hmem
  · omega
  · have := (List.pairwise_cons.mp hpost).1 g' hmem
    omega

end InHole

/-! ## What is missing -/

/-- The fragment fills byte `x`; the last one also ends the packet. -/
def Packet.Closes (p : Packet) (x : Nat) : Prop := p.start ≤ x ∧ (p.more = true → (x : Int) < p.stop)

/-- Byte `x` is missing after the fragments `done`. -/
def Missing (done : List Packet) (x : Nat) : Prop := x < 65535 ∧ ∀ p ∈ done, ¬ p.Closes x

theorem missing_cons (p : Packet) (done : List Packet) (x : Nat) :
    Missing (p :: done) x ↔ Missing done x ∧ ¬ p.Closes x := by
  unfold Missing
  rw [List.forall_mem_cons]
  tauto

section FillHole

variable {s : Defrag} {p : Packet} {pre post : List Gap} {i last : Nat}

/-- The fragment is in hole `(i, last)`. -/
structure Inside (p : Packet) (i last : Nat) : Prop where
  start_ge : 8 * i ≤ p.start
  pos : 0 < p.len
  stop_le : p.more = true → p.stop ≤ last
  last_eq : p.more = false → last = 65535

theorem Inside.post_nil (h : Inside p i last) (hstruck : Struck s p pre i last post)
    (hmore : p.more = false) :
    post = [] := by
  cases post with
  | nil => rfl
  | cons b post =>
    have hlast := hstruck.good.shape.behind b (.head _)
    have hslot := hstruck.good.shape.slot b (List.mem_append_right _ (.tail _ (.head _)))
    rw [h.last_eq hmore] at hlast
    unfold holeSlots at hslot
    omega

/-- The bytes of the hole that are left. -/
theorem inHole_fillHole (hstruck : Struck s p pre i last post) (h : Inside p i last) (x : Nat) :
    InHole (fillHole pre i last post p) x ↔
      (InHole (if p.offset8 ≤ i then live pre else pre) x ∨ (8 * i ≤ x ∧ x < last) ∨ InHole post x) ∧
      ¬ p.Closes x := by
  have hstop : p.stop = p.start + p.len := rfl
  have hstart : p.start = p.offset8 * 8 := rfl
  have hpos := h.pos
  have hge := h.start_ge
  have hpre : ∀ hs : List Gap, hs.Sublist pre → InHole hs x → ¬ p.Closes x := by
    rintro hs hsub ⟨g, hg, -, hx⟩ hcloses
    have := hstruck.before g (hsub.subset hg)
    have := hcloses.1
    omega
  have hpost : InHole post x → ¬ p.Closes x := by
    rintro ⟨g, hg, hx, -⟩ hcloses
    by_cases hmore : p.more = true
    · have := hcloses.2 hmore
      have := hstruck.stop_le g hg
      omega
    · rw [h.post_nil hstruck (by simpa using hmore)] at hg
      cases hg
  have hlive := hpre (live pre) (live_sublist pre)
  have hall := hpre pre (List.Sublist.refl pre)
  unfold fillHole
  dsimp only
  split
  · next hopen =>
      have hnew := p.new_eq hstruck.len_nonneg (hstruck.descriptor hopen.1 hopen.2).1
      have hcloses : p.Closes x ↔ p.start ≤ x ∧ (x : Int) < p.stop :=
        and_congr_right fun _ => ⟨fun hx => hx hopen.1, fun hx _ => hx⟩
      have hlt := hopen.2
      split
      · simp only [inHole_append, inHole_cons]
        rw [hcloses] at hlive hpost ⊢
        constructor
        · rintro (hx | hx | hx)
          · exact ⟨.inl hx, hlive hx⟩
          · omega
          · exact ⟨.inr (.inr hx), hpost hx⟩
        · rintro ⟨hx | hx | hx, hnot⟩
          · exact .inl hx
          · omega
          · exact .inr (.inr hx)
      · next hoff =>
          simp only [inHole_append, inHole_cons]
          rw [hcloses] at hall hpost ⊢
          constructor
          · rintro (hx | hx | hx | hx)
            · exact ⟨.inl hx, hall hx⟩
            · omega
            · omega
            · exact ⟨.inr (.inr hx), hpost hx⟩
          · rintro ⟨hx | hx | hx, hnot⟩
            · exact .inl hx
            · omega
            · exact .inr (.inr (.inr hx))
  · next hclosed =>
      -- The fragment reaches the end of the hole.
      have hcloses : 8 * i ≤ x → x < last → (p.Closes x ↔ p.start ≤ x) := by
        intro _ hx
        refine ⟨fun hc => hc.1, fun hc => ⟨hc, fun hmore => ?_⟩⟩
        have : ¬ p.stop < last := fun hlt => hclosed ⟨hmore, hlt⟩
        omega
      split
      · simp only [inHole_append]
        constructor
        · rintro (hx | hx)
          · exact ⟨.inl hx, hlive hx⟩
          · exact ⟨.inr (.inr hx), hpost hx⟩
        rintro ⟨hx | hx | hx, hnot⟩
        · exact .inl hx
        · rw [hcloses hx.1 hx.2] at hnot
          omega
        · exact .inr hx
      · next hoff =>
          simp only [inHole_append, inHole_cons]
          constructor
          · rintro (hx | hx | hx)
            · exact ⟨.inl hx, hall hx⟩
            · have hle := hstruck.start_le
              refine ⟨.inr (.inl (by omega)), ?_⟩
              rw [hcloses (by omega) (by omega)]
              omega
            · exact ⟨.inr (.inr hx), hpost hx⟩
          · rintro ⟨hx | hx | hx, hnot⟩
            · exact .inl hx
            · rw [hcloses hx.1 hx.2] at hnot
              exact .inr (.inl (by omega))
            · exact .inr (.inr hx)

/-- What is put in the place of a hole is apart from the other holes. -/
theorem Strict.replace {mid : List Gap} (h : Strict (pre ++ (i, last) :: post)) (hmid : Strict mid)
    (hin : ∀ g ∈ mid, i ≤ g.1 ∧ g.2 ≤ last) : Strict (pre ++ (mid ++ post)) := by
  obtain ⟨hpre, hrest, hbetween⟩ := List.pairwise_append.mp h
  obtain ⟨hbehind, hpost⟩ := List.pairwise_cons.mp hrest
  unfold Strict at *
  rw [List.pairwise_append, List.pairwise_append]
  refine ⟨hpre, ⟨hmid, hpost, fun g hg b hb => ?_⟩, fun a ha b hb => ?_⟩
  · have := hbehind b hb
    have := (hin g hg).2
    omega
  rcases List.mem_append.mp hb with hb | hb
  · have := hbetween a ha (i, last) (.head _)
    have := (hin b hb).1
    dsimp only at *
    omega
  · exact hbetween a ha b (.tail _ hb)

theorem strict_fillHole (hstrict : Strict (pre ++ (i, last) :: post))
    (hstruck : Struck s p pre i last post)
    (h : Inside p i last) : Strict (fillHole pre i last post p) := by
  have hstop : p.stop = p.start + p.len := rfl
  have hpos := h.pos
  have hge := h.start_ge
  have hle := hstruck.start_le
  unfold fillHole
  dsimp only
  split
  · next hopen =>
      have hnew := p.new_eq hstruck.len_nonneg (hstruck.descriptor hopen.1 hopen.2).1
      generalize (p.offset8 + p.len.tdiv 8).toNat = new at *
      split
      · refine List.Pairwise.sublist (List.Sublist.append_right (live_sublist pre) _)
          (hstrict.replace (List.pairwise_singleton _ (new, last)) ?_)
        simp only [List.mem_singleton, forall_eq]
        omega
      · show Strict (pre ++ ([(i, p.start), (new, last)] ++ post))
        refine hstrict.replace ?_ ?_
        · refine List.pairwise_cons.mpr ⟨?_, List.pairwise_singleton _ _⟩
          simp only [List.mem_singleton, forall_eq]
          omega
        · refine List.forall_mem_cons.mpr ⟨⟨le_refl _, hle⟩, ?_⟩
          simp only [List.mem_singleton, forall_eq]
          omega
  · split
    · exact List.Pairwise.sublist ((live_sublist pre).append (List.sublist_cons_self _ _)) hstrict
    · refine hstrict.replace (List.pairwise_singleton _ (i, p.start)) ?_
      simp only [List.mem_singleton, forall_eq]
      exact ⟨le_refl _, hle⟩

/-- The walk ends at the hole. -/
theorem Struck.holes_eq (h : Struck s p pre i last post) :
    holesBefore (pre ++ (i, last) :: post) p = pre ∧
      holesFrom (pre ++ (i, last) :: post) p = (i, last) :: post := by
  have hnot : decide (last < p.start) = false := decide_eq_false (Nat.not_lt.mpr h.start_le)
  have hpre : ∀ a ∈ pre, decide (a.2 < p.start) = true := fun a ha => by simpa using h.before a ha
  constructor
  · rw [holesBefore, List.takeWhile_append_of_pos hpre]
    simp [hnot]
  · rw [holesFrom, List.dropWhile_append_of_pos hpre]
    simp [hnot]

/-- A fragment that strikes a hole fills it. -/
theorem netDefragment_struck (h : Struck s p pre i last post) (hfresh : ¬ s.Fresh p) :
    ∃ s', Filled s p i (fillHole pre i last post p) s' ∧
      netDefragment s p = some (if fillHole pre i last post p = [] then (some (complete s').1, (complete s').2)
        else (none, s')) := by
  obtain ⟨hbefore, hfrom⟩ := h.holes_eq
  have hgentle : Gentle (pre ++ (i, last) :: post) p := by
    rw [Gentle, hfrom]
    exact fun _ => ⟨h.len_nonneg, fun b hb => h.stop_le b (List.mem_of_mem_head? hb), h.descriptor⟩
  have hfill : fill (pre ++ (i, last) :: post) p = some (fillHole pre i last post p) := by
    simp only [fill, hfrom, hbefore, if_pos h.overlaps]
  obtain ⟨j, last', hhead, -, -, s', hfilled, hrun⟩ :=
    (netDefragment_fill h.good hfresh h.inBuffer hgentle).2 _ hfill
  rw [hfrom] at hhead
  obtain ⟨rfl, rfl⟩ := Prod.mk.inj (Option.some.inj hhead)
  exact ⟨s', hfilled, hrun⟩

/-- A fragment that reaches into no hole is dropped. -/
theorem netDefragment_dropped {hs : List Gap} (h : Good s hs) (hfresh : ¬ s.Fresh p) (hin : p.InBuffer)
    (hnone : ∀ g ∈ hs, ¬ p.Overlaps g.1) : netDefragment s p = some (none, s) := by
  have hsub : ∀ g ∈ holesFrom hs p, ¬ p.Overlaps g.1 := fun g hg =>
    hnone g ((List.dropWhile_sublist _).subset hg)
  have hgentle : Gentle hs p := by
    unfold Gentle
    cases hfrom : holesFrom hs p with
    | nil => trivial
    | cons g post => exact fun hover => absurd hover (hsub g (hfrom ▸ (.head _)))
  refine (netDefragment_fill h hfresh hin hgentle).1 ?_
  unfold fill
  cases hfrom : holesFrom hs p with
  | nil => rfl
  | cons g post => exact if_neg (hsub g (hfrom ▸ (.head _)))

end FillHole

/-! ## The fragments of a packet -/

/-- A fragment of `payload`. -/
structure Fragment (payload : List UInt8) (id : Nat) (p : Packet) : Prop where
  id_eq : p.ipId = id
  pos : 0 < p.len
  stop_le : p.stop ≤ payload.length
  more_iff : p.more = true ↔ p.stop < payload.length
  multiple : p.more = true → p.len % 8 = 0
  data : ∀ k : Nat, (k : Int) < p.len → p.bytes.getD (ipHdrSize + k) 0 = payload.getD (p.start + k) 0

/-- The fragments have no byte in common. -/
def Packet.Apart (p q : Packet) : Prop := p.stop ≤ q.start ∨ q.stop ≤ p.start
  deriving Decidable

/-- The fragments of `payload`, each of them once, in the order in which they arrive: every byte is
    in one of them. -/
structure Delivers (payload : List UInt8) (id : Nat) (order : List Packet) : Prop where
  length_le : payload.length ≤ ipMaxudp
  ne : order ≠ []
  fragment : ∀ p ∈ order, Fragment payload id p
  apart : order.Pairwise Packet.Apart
  covers : ∀ x < payload.length, ∃ p ∈ order, p.start ≤ x ∧ (x : Int) < p.stop

section Fragments

variable {payload : List UInt8} {id : Nat} {p q : Packet} {x : Nat}

theorem Fragment.closes_start (h : Fragment payload id p) : p.Closes p.start := by
  refine ⟨le_refl _, fun _ => ?_⟩
  have := h.pos
  unfold Packet.stop
  omega

theorem Fragment.start_lt (h : Fragment payload id p) : p.start < payload.length := by
  have := h.pos
  have := h.stop_le
  unfold Packet.stop at *
  omega

/-- Only bytes behind the packet are closed by a fragment that has not got them. -/
theorem Fragment.lt_stop (h : Fragment payload id p) (hx : p.Closes x) (hlt : x < payload.length) :
    (x : Int) < p.stop := by
  by_cases hmore : p.more = true
  · exact hx.2 hmore
  · have := mt h.more_iff.mpr hmore
    omega

/-- No byte is closed by two fragments. -/
theorem Packet.Apart.not_closes (h : p.Apart q) (hp : Fragment payload id p)
    (hq : Fragment payload id q)
    (hx : p.Closes x) : ¬ q.Closes x := by
  have hpPos := hp.pos
  have hqPos := hq.pos
  have hpStop := hp.stop_le
  have hqStop := hq.stop_le
  have hpMore := hp.more_iff
  have hqMore := hq.more_iff
  have hpx := hx.1
  intro hy
  have hqx := hy.1
  unfold Packet.stop at *
  rcases h with h | h
  · have := hx.2 (hpMore.mpr (by unfold Packet.stop at h; omega))
    unfold Packet.stop at *
    omega
  · have := hy.2 (hqMore.mpr (by unfold Packet.stop at h; omega))
    unfold Packet.stop at *
    omega

end Fragments

/-! ## Progress -/

/-- The list `hs` after the fragments `done`: the holes are what is missing, from byte `lost` on.
    Where the hole at block 0 was lost, its descriptor is still in the buffer. -/
structure Progress (payload : List UInt8) (id lost : Nat) (done : List Packet) (s : Defrag) (hs : List Gap) :
    Prop where
  good : hs ≠ [] → Good s hs
  strict : Strict hs
  holes : ∀ x, InHole hs x ↔ Missing done x ∧ lost ≤ x
  id_eq : s.ipId = id
  totalLen_ne : s.totalLen ≠ 0
  totalLen : (∃ p ∈ done, p.more = false) → s.totalLen = payload.length
  data : ∀ x < payload.length, lost ≤ x → ¬ Missing done x → s.pktBuff (ipHdrSize + x) = payload.getD x 0
  arrived : 0 < lost → ∃ q ∈ done, q.Closes lost
  beginning : 0 < lost → (s.pktBuff ipHdrSize).toNat % 8 = 0

/-- Where a fragment starts and ends. -/
abbrev Cut : Type := Nat × Int

def Packet.cut (p : Packet) : Cut := (p.start, p.stop)

/-- The fragment continues the lowest run of fragments in `done`, which does not start at 0. -/
def Continues (done : List Cut) (p : Cut) : Prop :=
  ∃ a < p.1, 0 < a ∧ (∀ q ∈ done, a ≤ q.1) ∧ ∀ x < p.1, a ≤ x → ∃ q ∈ done, q.1 ≤ x ∧ (x : Int) < q.2

instance (done : List Cut) (p : Cut) : Decidable (Continues done p) :=
  inferInstanceAs (Decidable (∃ a < p.1, _ ∧ _ ∧ _))

theorem continues_iff (done : List Packet) (p : Packet) : Continues (done.map Packet.cut) p.cut ↔
    ∃ a < p.start, 0 < a ∧ (∀ q ∈ done, a ≤ q.start) ∧
      ∀ x < p.start, a ≤ x → ∃ q ∈ done, q.start ≤ x ∧ (x : Int) < q.stop := by
  unfold Continues
  simp only [List.mem_map, forall_exists_index, and_imp, forall_apply_eq_imp_iff₂,
    exists_exists_and_eq_and]
  rfl

section Progress

variable {payload : List UInt8} {id lost i last : Nat} {p : Packet} {done : List Packet}
    {s s' : Defrag}
  {hs pre post : List Gap}

/-- A fragment of which no byte has arrived. -/
structure Next (payload : List UInt8) (id : Nat) (done : List Packet) (p : Packet) : Prop where
  length_le : payload.length ≤ ipMaxudp
  fragment : Fragment payload id p
  fragments : ∀ q ∈ done, Fragment payload id q
  apart : ∀ q ∈ done, q.Apart p

theorem Next.missing (h : Next payload id done p) {x : Nat} (hx : p.Closes x) (hlt : x < 65535) :
    Missing done x :=
  ⟨hlt, fun q hq hclosed => (h.apart q hq).not_closes (h.fragments q hq) h.fragment hclosed hx⟩

theorem Next.inBuffer (h : Next payload id done p) : p.InBuffer := by
  have := h.length_le
  have := h.fragment.pos
  have := h.fragment.stop_le
  unfold Packet.InBuffer Packet.stop at *
  omega

theorem Next.start_lt (h : Next payload id done p) : p.start < 65535 := by
  have := h.fragment.start_lt
  have := h.length_le
  unfold ipMaxudp ipPktsize ipHdrSize at *
  omega

theorem Progress.not_fresh (h : Progress payload id lost done s hs) (hp : p.ipId = id) :
    ¬ s.Fresh p := by
  rintro (hzero | hne)
  · exact h.totalLen_ne hzero
  · exact hne (h.id_eq.trans hp.symm)

/-- A fragment is before what is lost or behind it. -/
theorem Progress.cases (h : Progress payload id lost done s hs) (hp : Next payload id done p) :
    (0 < lost ∧ p.more = true ∧ p.stop ≤ lost) ∨ lost ≤ p.start := by
  rcases Nat.eq_zero_or_pos lost with hzero | hpos
  · right
    omega
  obtain ⟨q, hq, hcloses⟩ := h.arrived hpos
  have hnot := (hp.apart q hq).not_closes (hp.fragments q hq) hp.fragment hcloses
  by_cases hle : lost ≤ p.start
  · exact .inr hle
  left
  by_cases hmore : p.more = true
  · refine ⟨hpos, hmore, ?_⟩
    by_contra hlt
    exact hnot ⟨by omega, fun _ => by omega⟩
  · exact absurd ⟨by omega, fun hm => absurd hm hmore⟩ hnot

/-- A fragment before what is lost is dropped. -/
theorem Progress.dropped (h : Progress payload id lost done s hs) (hne : hs ≠ [])
    (hp : Next payload id done p)
    (hmore : p.more = true) (hstop : p.stop ≤ lost) :
    netDefragment s p = some (none, s) ∧ Progress payload id lost (p :: done) s hs := by
  have hnot : ∀ x, lost ≤ x → ¬ p.Closes x := by
    intro x hx hcloses
    have := hcloses.2 hmore
    omega
  have hmissing : ∀ x, lost ≤ x → (Missing (p :: done) x ↔ Missing done x) := fun x hx => by
    rw [missing_cons]
    exact and_iff_left (hnot x hx)
  refine ⟨netDefragment_dropped (h.good hne) (h.not_fresh hp.fragment.id_eq) hp.inBuffer fun g hg => ?_, ?_⟩
  · have hroom := (h.good hne).shape.room g hg
    have hlow := ((h.holes (8 * g.1)).mp ⟨g, hg, le_refl _, by omega⟩).2
    rw [p.overlaps_iff hp.fragment.pos.le]
    have := hp.fragment.multiple hmore
    unfold Packet.stop Packet.start at hstop
    omega
  · refine ⟨h.good, h.strict, fun x => ?_, h.id_eq, h.totalLen_ne, ?_, fun x hx hlow hgot => ?_,
      fun hpos => ?_,
      h.beginning⟩
    · rw [h.holes]
      exact and_congr_left fun hx => (hmissing x hx).symm
    · rintro ⟨q, hq, hlast⟩
      rcases List.mem_cons.mp hq with rfl | hq
      · rw [hmore] at hlast
        cases hlast
      · exact h.totalLen ⟨q, hq, hlast⟩
    · exact h.data x hx hlow (fun hmiss => hgot ((hmissing x hlow).mpr hmiss))
    · obtain ⟨q, hq, hcloses⟩ := h.arrived hpos
      exact ⟨q, .tail _ hq, hcloses⟩

/-- A fragment behind what is lost strikes a hole. -/
theorem Progress.struck (h : Progress payload id lost done s hs) (hp : Next payload id done p)
    (hlost : lost ≤ p.start) : ∃ pre i last post, hs = pre ++ (i, last) :: post ∧ Struck s p pre i last post ∧
      Inside p i last := by
  have hin : ∀ x, p.Closes x → x < 65535 → InHole hs x := fun x hx hlt =>
    (h.holes x).mpr ⟨hp.missing hx hlt, hlost.trans hx.1⟩
  obtain ⟨⟨i, last⟩, hg, hlow, hhigh⟩ := hin p.start hp.fragment.closes_start hp.start_lt
  have hgood := h.good (List.ne_nil_of_mem hg)
  obtain ⟨pre, post, rfl⟩ := List.append_of_mem hg
  obtain ⟨-, hbehind, hbefore⟩ := List.pairwise_append.mp h.strict
  have hbehind := (List.pairwise_cons.mp hbehind).1
  have hpos := hp.fragment.pos
  have hstop := hp.fragment.stop_le
  have hlength := hp.length_le
  have hstopEq : p.stop = p.start + p.len := rfl
  dsimp only at hlow hhigh
  unfold ipMaxudp ipPktsize ipHdrSize at hlength
  have hinside : Inside p i last := by
    refine ⟨hlow, hpos, fun hmore => ?_, fun hmore => ?_⟩
    · have := h.strict.stop_le hg hlow hhigh (b := p.stop.toNat) fun x hx hlt =>
        hin x ⟨hx, fun _ => by omega⟩ (by omega)
      dsimp only at this
      omega
    · have := h.strict.stop_le hg hlow hhigh (b := 65535) fun x hx hlt =>
        hin x ⟨hx, fun hm => absurd hm (by rw [hmore]; decide)⟩ hlt
      have := hgood.shape.last_le _ hg
      dsimp only at *
      omega
  refine ⟨pre, i, last, post, rfl, ⟨hgood, fun a ha => ?_, by omega, hp.inBuffer, ?_, hpos.le, fun b hb => ?_,
    fun hmore _ => ⟨hp.fragment.multiple hmore, ?_⟩⟩, hinside⟩
  · have := hbefore a ha _ (.head _)
    dsimp only at this
    omega
  · rw [p.overlaps_iff hpos.le]
    unfold Packet.start at hlow
    omega
  · have := hbehind b hb
    dsimp only at this
    by_cases hmore : p.more = true
    · have := hinside.stop_le hmore
      omega
    · have := hinside.last_eq (by simpa using hmore)
      omega
  · have := hp.fragment.more_iff.mp hmore
    have := hp.length_le
    omega

/-- A descriptor is not where a byte is that is in no hole. -/
theorem Shape.apart_of_not_inHole (h : Shape hs) {x : Nat} (hx : ¬ InHole hs x) :
    ∀ j ∈ indices hs, ipHdrSize + x < holeAddr j ∨ holeAddr j + 8 ≤ ipHdrSize + x := by
  intro j hj
  obtain ⟨g, hg, rfl⟩ := List.mem_map.mp hj
  have hroom := h.room g hg
  by_contra hlt
  refine hx ⟨g, hg, ?_⟩
  unfold holeAddr at hlt
  omega

/-- A fragment that fills a hole; the holes that stay are those from byte `lost'` on. -/
theorem Progress.filled {lost' : Nat} (h : Progress payload id lost done s (pre ++ (i, last) :: post))
    (hp : Next payload id done p) (hstruck : Struck s p pre i last post) (hin : Inside p i last)
    (hfilled : Filled s p i (fillHole pre i last post p) s') (hle : lost ≤ lost')
    (hkept : ∀ x, (InHole (if p.offset8 ≤ i then live pre else pre) x ∨ (8 * i ≤ x ∧ x < last) ∨ InHole post x) ↔
      InHole (pre ++ (i, last) :: post) x ∧ lost' ≤ x)
    (hlost : 0 < lost' → 0 < p.start ∧ (∃ q ∈ done, q.Closes lost') ∧ (s.pktBuff ipHdrSize).toNat % 8 = 0) :
    Progress payload id lost' (p :: done) s' (fillHole pre i last post p) := by
  have hshape := hstruck.shape
  have hholes : ∀ x, InHole (fillHole pre i last post p) x ↔ Missing (p :: done) x ∧ lost' ≤ x := by
    intro x
    rw [inHole_fillHole hstruck hin, hkept, h.holes, missing_cons]
    constructor
    · rintro ⟨⟨⟨hmiss, -⟩, hlow⟩, hnot⟩
      exact ⟨⟨hmiss, hnot⟩, hlow⟩
    · rintro ⟨⟨hmiss, hnot⟩, hlow⟩
      exact ⟨⟨⟨hmiss, hle.trans hlow⟩, hlow⟩, hnot⟩
  have hmid : ∀ x, 8 * i ≤ x → x < last → InHole (pre ++ (i, last) :: post) x ∧ lost' ≤ x := fun x hx hx' =>
    (hkept x).mp (.inr (.inl ⟨hx, hx'⟩))
  have hmem : (i, last) ∈ pre ++ (i, last) :: post := List.mem_append_right _ (.head _)
  have hroom := hstruck.good.shape.room _ hmem
  dsimp only at hroom
  -- Bytes that are in no hole, outside of the fragment, stay.
  have hframe : ∀ x, (x < p.start ∨ p.stop ≤ x) → (x < 8 * i ∨ 8 * i + 8 ≤ x) →
      ¬ InHole (fillHole pre i last post p) x → s'.pktBuff (ipHdrSize + x) = s.pktBuff (ipHdrSize + x) := by
    intro x hx hi hnot
    refine hfilled.frame _ (by omega) (List.forall_mem_cons.mpr ⟨?_, hshape.apart_of_not_inHole hnot⟩)
    unfold holeAddr
    omega
  have hheader : ∀ x < ipHdrSize, s'.pktBuff x = s.pktBuff x := fun x hx =>
    hfilled.frame x (.inl (by omega)) fun j _ => .inl (by unfold holeAddr; omega)
  refine ⟨hfilled.good, strict_fillHole h.strict hstruck hin, hholes, ?_, ?_, ?_,
    fun x hx hlow hgot => ?_,
    fun hpos => ?_, fun hpos => ?_⟩
  · unfold Defrag.ipId
    rw [hheader 4 (by decide), hheader 5 (by decide)]
    exact h.id_eq
  · rw [hfilled.totalLen]
    split
    · exact h.totalLen_ne
    · have := hp.fragment.pos
      unfold Packet.stop
      omega
  · rintro ⟨q, hq, hlast⟩
    rw [hfilled.totalLen]
    split
    · next hmore =>
        rcases List.mem_cons.mp hq with rfl | hq
        · rw [hmore] at hlast
          cases hlast
        · exact h.totalLen ⟨q, hq, hlast⟩
    · next hmore =>
        have := mt hp.fragment.more_iff.mpr hmore
        have := hp.fragment.stop_le
        omega
  · by_cases hcloses : p.Closes x
    · have hstop := hp.fragment.lt_stop hcloses hx
      have hstart := hcloses.1
      have hstopEq : p.stop = p.start + p.len := rfl
      have hdata := hfilled.data (x - p.start) (by omega)
      rw [hp.fragment.data _ (by omega), show ipHdrSize + p.start + (x - p.start) = ipHdrSize + x by omega,
        show p.start + (x - p.start) = x by omega] at hdata
      exact hdata
    · have hmiss : ¬ Missing done x := fun hmiss => hgot ((missing_cons p done x).mpr ⟨hmiss, hcloses⟩)
      have hnot : ¬ InHole (pre ++ (i, last) :: post) x := fun hx => hmiss ((h.holes x).mp hx).1
      rw [hframe x ?_ ?_ fun hx => hgot ((hholes x).mp hx).1]
      · exact h.data x hx (hle.trans hlow) hmiss
      · by_contra hlt
        exact hcloses ⟨by omega, fun _ => by omega⟩
      · by_contra hlt
        exact hnot (hmid x (by omega) (by omega)).1
  · obtain ⟨-, ⟨q, hq, hcloses⟩, -⟩ := hlost hpos
    exact ⟨q, .tail _ hq, hcloses⟩
  obtain ⟨hstart, -, hbyte⟩ := hlost hpos
  have hi : 0 < 8 * i := hpos.trans_le (hmid (8 * i) le_rfl (by omega)).2
  rw [show ipHdrSize = ipHdrSize + 0 from rfl, hframe 0 (by omega) (by omega)
    fun hx => absurd ((hholes 0).mp hx).2 (by omega)]
  exact hbyte

/-- All holes before stay, but one at block 0 that is the only one. -/
theorem Shape.live_eq (h : Shape pre) (hne : ∀ first, pre ≠ [(0, first)]) : live pre = pre := by
  unfold live
  split
  · next hzero =>
      cases pre with
      | nil => rfl
      | cons g rest =>
        cases rest with
        | nil =>
          obtain ⟨j, first⟩ := g
          have hj : j = 0 := hzero
          rw [hj] at hne
          exact absurd rfl (hne first)
        | cons b rest =>
          have hlast : (indices (b :: rest)).getLastD 0 = 0 := by
            rw [← hzero, indices_cons, indices_cons]
            rfl
          have hmem : (0 : Nat) ∈ indices (b :: rest) := by
            rw [← hlast, indices_cons, List.getLastD_cons]
            exact List.getLastD_mem_cons
          obtain ⟨c, hc, hzero'⟩ := List.mem_map.mp hmem
          have := h.pos_of_behind c hc
          omega
  · rfl

/-- The fragment continues the lowest run if it starts the hole behind it. -/
theorem Progress.continues_of_first {first : Nat}
    (h : Progress payload id lost done s ((0, first) :: (i, last) :: post))
    (hp : Next payload id done p) (hin : Inside p i last) (hoff : p.offset8 ≤ i) :
    lost = 0 ∧ first < p.start ∧ (∃ q ∈ done, q.Closes first) ∧
      Continues (done.map Packet.cut) p.cut := by
  have hroom := (h.good nofun).shape.room (0, first) (.head _)
  have hstrict := (List.pairwise_cons.mp h.strict).1
  have hnext := hstrict (i, last) (.head _)
  have hstart : p.start = 8 * i := by
    have := hin.start_ge
    unfold Packet.start at *
    omega
  have hlost : lost = 0 := by
    have := ((h.holes 0).mp ⟨(0, first), .head _, by simp, by omega⟩).2
    omega
  dsimp only at hroom hnext
  have hbehind : ∀ b ∈ post, last < 8 * b.1 := (List.pairwise_cons.mp (List.pairwise_cons.mp h.strict).2).1
  have hlast := (h.good nofun).shape.room (i, last) (.tail _ (.head _))
  dsimp only at hlast
  -- All that is between the two holes has arrived.
  have hgot : ∀ x, first ≤ x → x < p.start → ∃ q ∈ done, q.Closes x := by
    intro x hx hlt
    have hnot : ¬ InHole ((0, first) :: (i, last) :: post) x := by
      rw [inHole_cons, inHole_cons]
      rintro (hin | hin | ⟨b, hb, hin, -⟩)
      · omega
      · omega
      · have := hbehind b hb
        omega
    by_contra hnone
    have hlt' := hp.start_lt
    exact hnot ((h.holes x).mpr ⟨⟨by omega, fun q hq hc => hnone ⟨q, hq, hc⟩⟩, by omega⟩)
  refine ⟨hlost, by omega, hgot first le_rfl (by omega), (continues_iff done p).mpr
    ⟨first, by omega, by omega, fun q hq => ?_, fun x hx hlow => ?_⟩⟩
  · by_contra hlt
    have hmiss := ((h.holes q.start).mp ⟨(0, first), .head _, by simp, by omega⟩).1
    exact hmiss.2 q hq (hp.fragments q hq).closes_start
  · obtain ⟨q, hq, hcloses⟩ := hgot x hlow hx
    have := hp.fragment.start_lt
    exact ⟨q, hq, hcloses.1, (hp.fragments q hq).lt_stop hcloses (by omega)⟩

/-- A fragment that continues the lowest run starts the second hole. -/
theorem Progress.first_of_continues (h : Progress payload id 0 done s (pre ++ (i, last) :: post))
    (hp : Next payload id done p) (hstruck : Struck s p pre i last post) (hin : Inside p i last)
    (hcont : Continues (done.map Packet.cut) p.cut) : p.offset8 ≤ i ∧ ∃ first, pre = [(0, first)] := by
  obtain ⟨a, ha, hpos, hmin, hrun⟩ := (continues_iff done p).mp hcont
  have hshape := hstruck.good.shape
  have hlt' := hp.start_lt
  have hlow : ∀ x < a, InHole (pre ++ (i, last) :: post) x := fun x hx =>
    (h.holes x).mpr ⟨⟨by omega, fun q hq hc => by have := hmin q hq; have := hc.1; omega⟩, Nat.zero_le x⟩
  have hhigh : ∀ x, a ≤ x → x < p.start → ¬ InHole (pre ++ (i, last) :: post) x := by
    intro x hx hlt hhole
    obtain ⟨q, hq, hstart, hstop⟩ := hrun x hlt hx
    exact ((h.holes x).mp hhole).1.2 q hq ⟨hstart, fun _ => hstop⟩
  -- The hole of the fragment does not start before the run, which is before the fragment.
  have hself : 8 * i = p.start := by
    have hge := hin.start_ge
    have hle := hstruck.start_le
    have hmem : (i, last) ∈ pre ++ (i, last) :: post := List.mem_append_right _ (.head _)
    have hroom := hshape.room _ hmem
    dsimp only at hroom
    by_contra hne
    rcases Nat.lt_or_ge (8 * i) a with hlt | hge'
    · exact hhigh a le_rfl ha ⟨_, hmem, by dsimp only; omega, by dsimp only; omega⟩
    · exact hhigh (8 * i) hge' (by omega) ⟨_, hmem, le_refl _, by dsimp only; omega⟩
  refine ⟨by unfold Packet.start at hself; omega, ?_⟩
  obtain ⟨g, hg, hgLow, hgHigh⟩ := hlow 0 hpos
  have hall := h.strict.stop_le hg hgLow hgHigh (b := a) fun x _ hx => hlow x hx
  have hzero : g.1 = 0 := by omega
  have hpre : g ∈ pre := by
    rcases List.mem_append.mp hg with hpre | hrest
    · exact hpre
    rcases List.mem_cons.mp hrest with rfl | hpost
    · omega
    · have := hshape.behind g hpost
      have := hstruck.start_le
      omega
  cases pre with
  | nil => cases hpre
  | cons c rest =>
    have hc : g = c := by
      rcases List.mem_cons.mp hpre with rfl | hrest
      · rfl
      · have hsub : Shape (c :: rest) := hshape.sublist (List.sublist_append_left _ _)
        have := hsub.pos_of_behind g hrest
        omega
    subst hc
    -- A second hole before the fragment would be of bytes that have arrived.
    cases rest with
    | nil => exact ⟨g.2, by rw [← hzero]⟩
    | cons b rest =>
      have hmem : b ∈ g :: b :: rest := .tail _ (.head _)
      have hroom := hshape.room b (List.mem_append_left _ hmem)
      have hbefore := hstruck.before b hmem
      have hgap := (List.pairwise_cons.mp (List.pairwise_append.mp h.strict).1).1 b (.head _)
      exact absurd ⟨b, List.mem_append_left _ hmem, le_refl _, by omega⟩
        (hhigh (8 * b.1) (by omega) (by omega))

/-- **One fragment.** What is missing afterwards is what was missing, without the fragment; more is
    lost if the fragment continues the lowest run. -/
theorem Progress.step (h : Progress payload id lost done s hs) (hp : Next payload id done p)
    (hlost : lost ≤ p.start) : ∃ lost' hs' s', Progress payload id lost' (p :: done) s' hs' ∧
      netDefragment s p = some (if hs' = [] then (some (complete s').1, (complete s').2) else (none, s')) ∧
      (0 < lost' ↔ 0 < lost ∨ Continues (done.map Packet.cut) p.cut) := by
  obtain ⟨pre, i, last, post, rfl, hstruck, hin⟩ := h.struck hp hlost
  obtain ⟨s', hfilled, hrun⟩ := netDefragment_struck hstruck (h.not_fresh hp.fragment.id_eq)
  by_cases htrouble : p.offset8 ≤ i ∧ ∃ first, pre = [(0, first)]
  · obtain ⟨hoff, first, rfl⟩ := htrouble
    obtain ⟨rfl, hfirst, harrived, hcont⟩ := h.continues_of_first hp hin hoff
    have hroom := hstruck.good.shape.room (0, first) (.head _)
    have hstrict := (List.pairwise_cons.mp h.strict).1
    have hnext := hstrict (i, last) (.head _)
    dsimp only at hroom hnext
    refine ⟨first, _, s', h.filled hp hstruck hin hfilled (Nat.zero_le _) (fun x => ?_) fun _ => ?_,
      hrun, ?_⟩
    · rw [if_pos hoff, List.singleton_append, inHole_cons, inHole_cons,
        show live [(0, first)] = [] from rfl]
      constructor
      · rintro (hx | hx | ⟨b, hb, hx⟩)
        · exact absurd hx inHole_nil
        · omega
        · have := hstrict b (.tail _ hb)
          dsimp only at this
          exact ⟨.inr (.inr ⟨b, hb, hx⟩), by omega⟩
      · rintro ⟨hx | hx | hx, hlow⟩
        · omega
        · exact .inr (.inl hx)
        · exact .inr (.inr hx)
    · refine ⟨by omega, harrived, ?_⟩
      have hlast : lastByte s.pktBuff 0 = first := hstruck.good.linked.last (0, first) (.head _)
      have hmod := hstruck.good.shape.last_mod (0, first) (.head _)
      have hstart := hp.start_lt
      dsimp only at hmod
      unfold lastByte Mem.u16 at hlast
      rw [show holeAddr 0 = ipHdrSize from rfl] at hlast
      omega
    · exact iff_of_true (by omega) (.inr hcont)
  · have hkept : (if p.offset8 ≤ i then live pre else pre) = pre := by
      split
      · next hoff =>
          have hsub : Shape pre := hstruck.good.shape.sublist (List.sublist_append_left _ _)
          exact hsub.live_eq fun first heq => htrouble ⟨hoff, first, heq⟩
      · rfl
    refine ⟨lost, _, s', h.filled hp hstruck hin hfilled le_rfl (fun x => ?_) fun hpos => ?_,
      hrun, ?_⟩
    · rw [hkept, inHole_append, inHole_cons]
      refine (and_iff_left_of_imp fun hx => ?_).symm
      exact ((h.holes x).mp ((inHole_append _ _).mpr (hx.imp_right (inHole_cons _).mpr))).2
    · exact ⟨by omega, h.arrived hpos, h.beginning hpos⟩
    refine ⟨.inl, fun hor => hor.elim (fun hpos => hpos) fun hcont => ?_⟩
    by_contra hzero
    obtain rfl : lost = 0 := by omega
    exact htrouble (h.first_of_continues hp hstruck hin hcont)

end Progress

end Net
