import RkUboot.Lib.Ranges
import RkUboot.Lib.Run

set_option autoImplicit false

/-! # The reserved regions of `lib/lmb.c`

The table of reserved regions is an array of `MAX_LMB_REGIONS + 1` ranges, of which the first `cnt`
count. `lmb_init` puts an empty range in, which the first region replaces. `phys_addr_t` and
`unsigned long` are 64 bits wide.

The table does not survive being emptied. With `cnt = 0` the bound `cnt - 1` of `lmb_add_region` is
the highest number, so that it looks at two elements that do not count any more; it may join them,
and then `lmb_remove_region` runs behind the array (no result here). Otherwise it stores the new
region only if it lies below the element that was removed last. -/

namespace Lmb

open Ranges

/-- `lmb_property` -/
abbrev LmbProperty := Range

/-- `lmb_region`; its field `size` is not used. -/
structure LmbRegion where
  cnt : Nat
  region : Nat → LmbProperty

def maxLmbRegions : Nat := 8

/-! ## The model -/

/-- `lmb_addrs_adjacent` -/
def lmbAddrsAdjacent (base1 size1 base2 size2 : Nat) : Int :=
  if base2 = (base1 + size1) % 2 ^ 64 then 1
  else if base1 = (base2 + size2) % 2 ^ 64 then -1
  else 0

/-- `lmb_regions_adjacent` -/
def lmbRegionsAdjacent (rgn : LmbRegion) (r1 r2 : Nat) : Int :=
  lmbAddrsAdjacent (rgn.region r1).base (rgn.region r1).size (rgn.region r2).base (rgn.region r2).size

/-- The loop of `lmb_remove_region`, `k` rounds from `i`. -/
def shiftLoop : Nat → Nat → (Nat → LmbProperty) → Nat → LmbProperty
  | 0, _, region => region
  | k + 1, i, region => shiftLoop k (i + 1) (Function.update region i (region (i + 1)))

/-- `lmb_remove_region` -/
def lmbRemoveRegion (rgn : LmbRegion) (r : Nat) : Option LmbRegion :=
  if rgn.cnt = 0 then none else some ⟨rgn.cnt - 1, shiftLoop (rgn.cnt - 1 - r) r rgn.region⟩

/-- `lmb_coalesce_regions` -/
def lmbCoalesceRegions (rgn : LmbRegion) (r1 r2 : Nat) : Option LmbRegion :=
  let size := ((rgn.region r1).size + (rgn.region r2).size) % 2 ^ 64
  lmbRemoveRegion { rgn with region := Function.update rgn.region r1 ⟨(rgn.region r1).base, size⟩ } r2

/-- How the search for a region to extend ends. -/
inductive Scan where
  | already
  | extended (i : Nat) (rgn : LmbRegion)
  | apart

/-- The first loop of `lmb_add_region`, `k` rounds from `i`. -/
def scanLoop (rgn : LmbRegion) (base size : Nat) : Nat → Nat → Scan
  | 0, _ => .apart
  | k + 1, i =>
    let rgnbase := (rgn.region i).base
    let rgnsize := (rgn.region i).size
    let extend := fun b => Scan.extended i
      { rgn with region := Function.update rgn.region i ⟨b, (rgnsize + size) % 2 ^ 64⟩ }
    if rgnbase = base ∧ rgnsize = size then .already
    else if lmbAddrsAdjacent base size rgnbase rgnsize > 0 then extend ((rgnbase + 2 ^ 64 - size) % 2 ^ 64)
    else if lmbAddrsAdjacent base size rgnbase rgnsize < 0 then extend rgnbase
    else scanLoop rgn base size k (i + 1)

/-- `rgn->cnt - 1`, of type `unsigned long` -/
def LmbRegion.last (rgn : LmbRegion) : Nat := if rgn.cnt = 0 then 2 ^ 64 - 1 else rgn.cnt - 1

/-- Region `i` is joined with the next one if they are adjacent; `coalesced` counts. -/
def joinNext (rgn : LmbRegion) (i coalesced : Nat) : Option (Nat × LmbRegion) :=
  if i < rgn.last ∧ lmbRegionsAdjacent rgn i (i + 1) ≠ 0 then
    (lmbCoalesceRegions rgn i (i + 1)).map fun rgn => (coalesced + 1, rgn)
  else some (coalesced, rgn)

/-- The loop that makes room for a new region, from index `i - 1` down. -/
def insertLoop (base size : Nat) : Nat → (Nat → LmbProperty) → Nat → LmbProperty
  | 0, region => region
  | i + 1, region =>
    if base < (region i).base then insertLoop base size i (Function.update region (i + 1) (region i))
    else Function.update region (i + 1) ⟨base, size⟩

/-- The last part of `lmb_add_region`. -/
def lmbInsert (rgn : LmbRegion) (base size : Nat) : LmbRegion :=
  let region := insertLoop base size rgn.cnt rgn.region
  ⟨rgn.cnt + 1, if base < (region 0).base then Function.update region 0 ⟨base, size⟩ else region⟩

/-- Model of `lmb_add_region`: its result and the table. -/
def lmbAddRegion (rgn : LmbRegion) (base size : Nat) : Option (Int × LmbRegion) :=
  if rgn.cnt = 1 ∧ (rgn.region 0).size = 0 then
    some (0, { rgn with region := Function.update rgn.region 0 ⟨base, size⟩ })
  else
    match scanLoop rgn base size rgn.cnt 0 with
    | .already => some (0, rgn)
    | .extended i rgn => (joinNext rgn i 1).map fun p => ((p.1 : Int), p.2)
    | .apart =>
      match joinNext rgn rgn.cnt 0 with
      | none => none
      | some (0, rgn) =>
        if maxLmbRegions ≤ rgn.cnt then some (-1, rgn) else some (0, lmbInsert rgn base size)
      | some (coalesced + 1, rgn) => some (((coalesced + 1 : Nat) : Int), rgn)

/-- The loop of `lmb_free`, `k` rounds from `i`: the region that holds the range. -/
def findLoop (rgn : LmbRegion) (base stop : Nat) : Nat → Nat → Nat
  | 0, i => i
  | k + 1, i =>
    if (rgn.region i).base ≤ base ∧ stop ≤ ((rgn.region i).base + (rgn.region i).size) % 2 ^ 64 then i
    else findLoop rgn base stop k (i + 1)

/-- Model of `lmb_free`. -/
def lmbFree (rgn : LmbRegion) (base size : Nat) : Option (Int × LmbRegion) :=
  let stop := (base + size) % 2 ^ 64
  let i := findLoop rgn base stop rgn.cnt 0
  if i = rgn.cnt then some (-1, rgn)
  else
    let rgnbegin := (rgn.region i).base
    let rgnend := (rgnbegin + (rgn.region i).size) % 2 ^ 64
    let resize := fun b s => { rgn with region := Function.update rgn.region i ⟨b, s % 2 ^ 64⟩ }
    if rgnbegin = base ∧ rgnend = stop then (lmbRemoveRegion rgn i).map fun rgn => (0, rgn)
    else if rgnbegin = base then some (0, resize stop ((rgn.region i).size + 2 ^ 64 - size))
    else if rgnend = stop then some (0, resize rgnbegin ((rgn.region i).size + 2 ^ 64 - size))
    else lmbAddRegion (resize rgnbegin (base + 2 ^ 64 - rgnbegin)) stop ((rgnend + 2 ^ 64 - stop) % 2 ^ 64)

/-- `lmb_reserve` -/
def lmbReserve (rgn : LmbRegion) (base size : Nat) : Option (Int × LmbRegion) :=
  lmbAddRegion rgn base size

/-- Model of `lmb_is_reserved`. -/
def lmbIsReserved (rgn : LmbRegion) (addr : Nat) : Bool :=
  (List.range rgn.cnt).any fun i =>
    decide ((rgn.region i).base ≤ addr ∧
      addr ≤ ((rgn.region i).base + (rgn.region i).size + 2 ^ 64 - 1) % 2 ^ 64)

/-- What `lmb_init` makes of a table. -/
def lmbInit (region : Nat → LmbProperty) : LmbRegion := ⟨1, Function.update region 0 ⟨0, 0⟩⟩

/-! ## Good tables -/

/-- A table of regions in order, that end below 2^64. -/
structure Good (rgn : LmbRegion) : Prop where
  cnt_le : rgn.cnt ≤ maxLmbRegions
  ordered : Ordered rgn.cnt rgn.region
  stop_lt : ∀ i < rgn.cnt, (rgn.region i).stop < 2 ^ 64

/-- The regions are sorted by their bases and disjoint. -/
def Sorted (rgn : LmbRegion) : Prop :=
  ∀ i j, i < j → j < rgn.cnt → (rgn.region i).stop ≤ (rgn.region j).base

/-- The addresses that the table reserves. -/
def LmbRegion.Reserves (rgn : LmbRegion) (x : Nat) : Prop := Covers rgn.cnt rgn.region x

section Tables

variable {rgn : LmbRegion} {r : Range} {i : Nat}

theorem lmbIsReserved_iff (h : Good rgn) (addr : Nat) :
    lmbIsReserved rgn addr = true ↔ rgn.Reserves addr := by
  unfold lmbIsReserved LmbRegion.Reserves Covers
  rw [List.any_eq_true]
  have hupper : ∀ i < rgn.cnt, (rgn.region i).base + (rgn.region i).size + 2 ^ 64 - 1
      = (rgn.region i).stop - 1 + 2 ^ 64 ∧ 0 < (rgn.region i).stop := by
    intro i hi
    have := h.ordered.pos i hi
    unfold Range.stop
    omega
  constructor
  · rintro ⟨i, hi, hx⟩
    rw [List.mem_range] at hi
    obtain ⟨heq, hpos⟩ := hupper i hi
    have hlt := h.stop_lt i hi
    rw [decide_eq_true_eq, heq, Nat.add_mod_right, Nat.mod_eq_of_lt (by omega)] at hx
    exact ⟨i, hi, hx.1, by omega⟩
  · rintro ⟨i, hi, hx⟩
    obtain ⟨heq, hpos⟩ := hupper i hi
    have hlt := h.stop_lt i hi
    refine ⟨i, List.mem_range.mpr hi, ?_⟩
    rw [decide_eq_true_eq, heq, Nat.add_mod_right, Nat.mod_eq_of_lt (by omega)]
    exact ⟨hx.1, by have := hx.2; omega⟩

theorem shiftLoop_eq (k i : Nat) (f : Nat → LmbProperty) (j : Nat) :
    shiftLoop k i f j = if i ≤ j ∧ j < i + k then f (j + 1) else f j := by
  induction k generalizing i f with
  | zero => rw [shiftLoop, if_neg (by omega)]
  | succ k ih =>
    rw [shiftLoop, ih]
    rcases Nat.lt_trichotomy j i with hlt | rfl | hgt
    · rw [if_neg (by omega), if_neg (by omega), Function.update_of_ne (by omega)]
    · simp
    · rw [Function.update_of_ne (by omega), Function.update_of_ne (by omega)]
      congr 1
      exact propext (by omega)

/-- A region is taken out; the last one stays where it is, behind the end. -/
theorem lmbRemoveRegion_eq (rgn : LmbRegion) (hi : i < rgn.cnt) :
    ∃ region, lmbRemoveRegion rgn i = some ⟨rgn.cnt - 1, region⟩ ∧
      (∀ j < rgn.cnt - 1, region j = without rgn.region i j) ∧ (rgn.cnt - 1 = 0 → region = rgn.region) := by
  refine ⟨_, by rw [lmbRemoveRegion, if_neg (by omega)], fun j hj => ?_, fun hlast => ?_⟩
  · rw [shiftLoop_eq, without]
    by_cases hlt : j < i
    · rw [if_neg (by omega), if_pos hlt]
    · rw [if_pos (by omega), if_neg hlt]
  · rw [hlast, Nat.zero_sub, shiftLoop]

theorem Good.lt (h : Good rgn) {x : Nat} (hx : rgn.Reserves x) : x + 1 < 2 ^ 64 := by
  obtain ⟨i, hi, hx⟩ := hx
  have := h.stop_lt i hi
  have := hx.2
  omega

theorem Good.stop_mod (h : Good rgn) (hi : i < rgn.cnt) :
    ((rgn.region i).base + (rgn.region i).size) % 2 ^ 64 = (rgn.region i).stop :=
  Nat.mod_eq_of_lt (h.stop_lt i hi)

/-- A table in order is good if the addresses that it reserves are low enough. -/
theorem good_of_ordered {n : Nat} {region : Nat → LmbProperty} (hn : n ≤ maxLmbRegions)
    (hordered : Ordered n region)
    (hlt : ∀ x, Covers n region x → x + 1 < 2 ^ 64) : Good ⟨n, region⟩ := by
  refine ⟨hn, hordered, fun i hi => ?_⟩
  show (region i).stop < 2 ^ 64
  have hpos := hordered.pos i hi
  have hlast := hlt ((region i).stop - 1) ⟨i, hi, by unfold Range.Has Range.stop; omega⟩
  omega

theorem lmbAddrsAdjacent_eq {s : Range} (hr : r.stop < 2 ^ 64) (hs : s.stop < 2 ^ 64) :
    lmbAddrsAdjacent r.base r.size s.base s.size
      = if s.base = r.stop then 1 else if r.base = s.stop then -1 else 0 := by
  unfold Range.stop at *
  rw [lmbAddrsAdjacent, Nat.mod_eq_of_lt hr, Nat.mod_eq_of_lt hs]

end Tables

/-! ## Adding a region -/

/-- The range lies apart from every region. -/
def Apart (rgn : LmbRegion) (r : Range) : Prop :=
  ∀ j < rgn.cnt, r.stop ≤ (rgn.region j).base ∨ (rgn.region j).stop ≤ r.base

/-- `t` is `r` and `s` together, which have no gap between them. -/
def Together (r s t : Range) : Prop :=
  (s.base = r.stop ∧ t = ⟨r.base, s.size + r.size⟩) ∨ (r.base = s.stop ∧ t = ⟨s.base, s.size + r.size⟩)

section Adding

variable {rgn : LmbRegion} {r : Range}

theorem Together.has {s t : Range} (h : Together r s t) (x : Nat) : t.Has x ↔ r.Has x ∨ s.Has x := by
  unfold Range.Has
  rcases h with ⟨hgap, rfl⟩ | ⟨hgap, rfl⟩ <;>
  · unfold Range.stop at *
    dsimp only
    omega

/-- A region that the range touches is extended, or no region touches it. -/
theorem scanLoop_cases (h : Good rgn) (hr : 0 < r.size) (hlt : r.stop < 2 ^ 64) (hapart : Apart rgn r)
    (k i : Nat) (hk : i + k = rgn.cnt) :
    (∃ j t, j < rgn.cnt ∧ Together r (rgn.region j) t ∧
      scanLoop rgn r.base r.size k i = .extended j { rgn with region := Function.update rgn.region j t }) ∨
    scanLoop rgn r.base r.size k i = .apart := by
  induction k generalizing i with
  | zero => exact .inr rfl
  | succ k ih =>
    have hi : i < rgn.cnt := by omega
    have hstop := h.stop_lt i hi
    have hdiff := hapart i hi
    rw [scanLoop]
    rw [lmbAddrsAdjacent_eq hlt hstop, if_neg]
    · unfold Range.stop at hlt hstop hdiff
      by_cases hbelow : (rgn.region i).base = r.stop
      · left
        refine ⟨i, ⟨r.base, (rgn.region i).size + r.size⟩, hi, .inl ⟨hbelow, rfl⟩, ?_⟩
        rw [if_pos hbelow, if_pos (by decide)]
        unfold Range.stop at hbelow
        have hbase : ((rgn.region i).base + 2 ^ 64 - r.size) % 2 ^ 64 = r.base := by omega
        have hsize : ((rgn.region i).size + r.size) % 2 ^ 64 = (rgn.region i).size + r.size := by omega
        rw [hbase, hsize]
      by_cases habove : r.base = (rgn.region i).stop
      · left
        refine ⟨i, ⟨(rgn.region i).base, (rgn.region i).size + r.size⟩, hi, .inr ⟨habove, rfl⟩, ?_⟩
        have hsize : ((rgn.region i).size + r.size) % 2 ^ 64 = (rgn.region i).size + r.size := by
          omega
        rw [if_neg hbelow, if_pos habove, if_neg (by decide), if_pos (by decide), hsize]
      · rw [if_neg hbelow, if_neg habove, if_neg (by decide), if_neg (by decide)]
        exact ih (i + 1) (by omega)
    · rintro ⟨hbase, hsize⟩
      unfold Range.stop at hdiff
      omega

/-- The extended table. -/
theorem extended_good (h : Good rgn) (hr : 0 < r.size) (hlt : r.stop < 2 ^ 64)
    (hapart : Apart rgn r) {j : Nat}
    (hj : j < rgn.cnt) {t : Range} (ht : Together r (rgn.region j) t) :
    Good ⟨rgn.cnt, Function.update rgn.region j t⟩ ∧
    ∀ x, Covers rgn.cnt (Function.update rgn.region j t) x ↔ rgn.Reserves x ∨ r.Has x := by
  have hcovers : ∀ x, Covers rgn.cnt (Function.update rgn.region j t) x ↔ rgn.Reserves x ∨ r.Has x := by
    intro x
    unfold LmbRegion.Reserves
    rw [covers_set hj, covers_split hj, ht.has, or_assoc, or_comm]
  refine ⟨good_of_ordered h.cnt_le ?_ ?_, hcovers⟩
  · -- What touches region `j` is apart from its neighbours.
    refine h.ordered.set ?_ ?_ ?_
    · rcases ht with ⟨-, rfl⟩ | ⟨-, rfl⟩ <;>
      · dsimp only
        omega
    · intro i hi hin
      have hij := h.ordered.lt i j hi hj
      have hposi := h.ordered.pos i hin
      rcases ht with ⟨hgap, rfl⟩ | ⟨hgap, rfl⟩
      · have := hapart i hin
        unfold Range.stop at *
        dsimp only
        omega
      · exact hij
    · intro i hi hin
      have hji := h.ordered.lt j i hi hin
      have hposi := h.ordered.pos i hin
      have hapi := hapart i hin
      rcases ht with ⟨hgap, rfl⟩ | ⟨hgap, rfl⟩ <;>
      · unfold Range.stop at *
        dsimp only
        omega
  · intro x hx
    rcases (hcovers x).mp hx with hx | hx
    · exact h.lt hx
    · have := hx.2
      omega

/-- Joining with the next region changes nothing that is reserved. -/
theorem joinNext_good (h : Good rgn) {i : Nat} (hi : i < rgn.cnt) (c : Nat) :
    ∃ c' rgn', joinNext rgn i c = some (c', rgn') ∧ Good rgn' ∧ 0 < rgn'.cnt ∧
      ∀ x, rgn'.Reserves x ↔ rgn.Reserves x := by
  have hcnt := h.cnt_le
  unfold maxLmbRegions at hcnt
  have hbound : rgn.last = rgn.cnt - 1 := if_neg (by omega)
  unfold joinNext
  rw [hbound]
  by_cases hnext : i < rgn.cnt - 1 ∧ lmbRegionsAdjacent rgn i (i + 1) ≠ 0
  · obtain ⟨hlast, hadj⟩ := hnext
    have hstop := h.stop_lt (i + 1) (by omega)
    have hgap : (rgn.region i).stop = (rgn.region (i + 1)).base := by
      have horder := h.ordered.lt i (i + 1) (by omega) (by omega)
      rw [lmbRegionsAdjacent, lmbAddrsAdjacent_eq (h.stop_lt i hi) hstop] at hadj
      by_contra hne
      rw [if_neg (fun heq => hne heq.symm), if_neg] at hadj
      · exact hadj rfl
      · unfold Range.stop at *
        omega
    have hsize : ((rgn.region i).size + (rgn.region (i + 1)).size) % 2 ^ 64
        = (rgn.region i).size + (rgn.region (i + 1)).size := by
      unfold Range.stop at *
      omega
    rw [if_pos ⟨hlast, hadj⟩, lmbCoalesceRegions, hsize]
    obtain ⟨region, hremove, hregion, -⟩ := lmbRemoveRegion_eq
      { rgn with region := Function.update rgn.region i (joined rgn.region i) } (show i + 1 < rgn.cnt by omega)
    have hcovers : ∀ x, Covers (rgn.cnt - 1) region x ↔ rgn.Reserves x := fun x => by
      rw [covers_congr hregion]
      exact covers_join (show i + 1 < rgn.cnt by omega) hgap
    refine ⟨c + 1, ⟨rgn.cnt - 1, region⟩, ?_, ?_, show 0 < rgn.cnt - 1 by omega, hcovers⟩
    · rw [show (⟨(rgn.region i).base, (rgn.region i).size + (rgn.region (i + 1)).size⟩ : Range)
        = joined rgn.region i from rfl, hremove]
      rfl
    · refine good_of_ordered (show rgn.cnt - 1 ≤ 8 by omega) ?_ fun x hx => h.lt ((hcovers x).mp hx)
      exact (h.ordered.join (by omega) hgap).congr hregion
  · exact ⟨c, rgn, if_neg hnext, h, Nat.zero_lt_of_lt hi, fun x => Iff.rfl⟩

/-- The new region is put in where the bases are sorted. -/
theorem insertLoop_eq {f : Nat → LmbProperty} {n : Nat} (hordered : Ordered n f) (i : Nat) (hi : i ≤ n)
    (hn : 0 < n) (g : Nat → LmbProperty) (hlow : ∀ j ≤ i, j < n → g j = f j)
    (hhigh : ∀ j, i < j → j ≤ n → g j = f (j - 1))
    (habove : ∀ j, i ≤ j → j < n → r.base < (f j).base) :
    ∃ p ≤ n, (∀ j < p, (f j).base ≤ r.base) ∧ (∀ j, p ≤ j → j < n → r.base < (f j).base) ∧
      ∀ j ≤ n, (if r.base < (insertLoop r.base r.size i g 0).base
        then Function.update (insertLoop r.base r.size i g) 0 r else insertLoop r.base r.size i g) j
        = insertAt f p r j := by
  induction i generalizing g with
  | zero =>
    refine ⟨0, hi, fun j hj => absurd hj (Nat.not_lt_zero j), habove, fun j hj => ?_⟩
    rw [insertLoop, hlow 0 le_rfl hn, if_pos (habove 0 le_rfl hn),
      Function.update_apply, insertAt,
      if_neg (Nat.not_lt_zero j)]
    split
    · rfl
    · exact hhigh j (by omega) hj
  | succ i ih =>
    have hbase : ∀ j ≤ i, (f j).base ≤ (f i).base := by
      intro j hj
      rcases Nat.lt_or_eq_of_le hj with hlt | rfl
      · have := hordered.lt j i hlt (by omega)
        unfold Range.stop at this
        omega
      · exact le_rfl
    rw [insertLoop, hlow i (by omega) (by omega)]
    split
    · next hless =>
        refine ih (by omega) _ (fun j hj hjn => ?_) (fun j hj hjn => ?_) (fun j hj hjn => ?_)
        · rw [Function.update_of_ne (by omega)]
          exact hlow j (by omega) hjn
        · rw [Function.update_apply]
          split
          · next heq => rw [heq, Nat.add_sub_cancel]
          · exact hhigh j (by omega) hjn
        · rcases Nat.lt_or_eq_of_le hj with hlt | rfl
          · exact habove j hlt hjn
          · exact hless
    · next hge =>
        have hfirst : (Function.update g (i + 1) r 0).base = (f 0).base := by
          rw [Function.update_of_ne (by omega), hlow 0 (by omega) hn]
        have h0 := hbase 0 (Nat.zero_le i)
        refine ⟨i + 1, hi, fun j hj => ?_, habove, fun j hj => ?_⟩
        · have := hbase j (by omega)
          omega
        rw [show (⟨r.base, r.size⟩ : Range) = r from rfl, hfirst, if_neg (by omega),
          Function.update_apply, insertAt]
        rcases Nat.lt_trichotomy j (i + 1) with hlt | rfl | hgt
        · rw [if_neg (by omega), if_pos hlt]
          exact hlow j (by omega) (by omega)
        · simp
        · rw [if_neg (by omega), if_neg (by omega), if_neg (by omega)]
          exact hhigh j hgt hj

theorem lmbInsert_good (h : Good rgn) (hpos : 0 < rgn.cnt) (hroom : rgn.cnt < maxLmbRegions)
    (hr : 0 < r.size) (hlt : r.stop < 2 ^ 64) (hapart : Apart rgn r) :
    Good (lmbInsert rgn r.base r.size) ∧
    ∀ x, (lmbInsert rgn r.base r.size).Reserves x ↔ rgn.Reserves x ∨ r.Has x := by
  obtain ⟨p, hp, hbelow, habove, heq⟩ := insertLoop_eq (r := r) h.ordered rgn.cnt le_rfl hpos rgn.region
    (fun j _ _ => rfl) (fun j hj hjn => by omega) (fun j hj hjn => by omega)
  have hcovers : ∀ x, (lmbInsert rgn r.base r.size).Reserves x ↔ rgn.Reserves x ∨ r.Has x := by
    intro x
    unfold LmbRegion.Reserves lmbInsert
    dsimp only
    rw [covers_congr (fun i hi => heq i (by omega)), covers_insertAt hp]
    exact or_comm
  refine ⟨good_of_ordered (by unfold maxLmbRegions at *; omega) ?_ ?_, hcovers⟩
  · refine (h.ordered.insertAt hp hr ?_ ?_).congr (fun i hi => heq i (by omega))
    · intro j hj
      have := hbelow j hj
      have := hapart j (by omega)
      unfold Range.stop at *
      omega
    · intro j hj hjn
      have := habove j hj hjn
      have := hapart j hjn
      unfold Range.stop at *
      omega
  · intro x hx
    rcases (hcovers x).mp hx with hx | hx
    · exact h.lt hx
    · have := hx.2
      omega

/-- `lmb_add_region` on a table that is not empty adds the range, or fails for want of room. -/
theorem lmbAddRegion_good (h : Good rgn) (hpos : 0 < rgn.cnt) (hr : 0 < r.size) (hlt : r.stop < 2 ^ 64)
    (hapart : Apart rgn r) :
    ∃ ret rgn', lmbAddRegion rgn r.base r.size = some (ret, rgn') ∧ (ret < 0 → rgn' = rgn) ∧
      (0 ≤ ret → Good rgn' ∧ 0 < rgn'.cnt ∧ ∀ x, rgn'.Reserves x ↔ rgn.Reserves x ∨ r.Has x) := by
  have hfirst := h.ordered.pos 0 hpos
  rw [lmbAddRegion, if_neg (by omega)]
  rcases scanLoop_cases h hr hlt hapart rgn.cnt 0 (by omega) with ⟨j, t, hj, ht, hscan⟩ | hscan
  · obtain ⟨hgood, hcovers⟩ := extended_good h hr hlt hapart hj ht
    obtain ⟨c, rgn', hjoin, hgood', hpos', hsame⟩ := joinNext_good hgood hj 1
    rw [hscan]
    refine ⟨c, rgn', by dsimp only; rw [hjoin]; rfl, fun hneg => absurd hneg (by omega), fun _ =>
      ⟨hgood', hpos', fun x => ?_⟩⟩
    rw [hsame]
    exact hcovers x
  · -- The search has ended behind the last region, which has no next one.
    have hlast : rgn.last = rgn.cnt - 1 := if_neg (by omega)
    have hjoin : joinNext rgn rgn.cnt 0 = some (0, rgn) := by
      rw [joinNext, if_neg (by omega)]
    simp only [hscan, hjoin]
    split
    · simp
    · next hroom =>
        obtain ⟨hgood, hcovers⟩ := lmbInsert_good h hpos (by omega) hr hlt hapart
        exact ⟨0, _, rfl, nofun, fun _ => ⟨hgood, Nat.succ_pos _, hcovers⟩⟩

end Adding

/-! ## Freeing a range -/

section Freeing

variable {rgn : LmbRegion} {r : Range} {i : Nat}

/-- The range lies in the region. -/
def Within (r s : Range) : Prop := s.base ≤ r.base ∧ r.stop ≤ s.stop
  deriving Decidable

theorem findLoop_eq (h : Good rgn) (hr : 0 < r.size) (hi : i < rgn.cnt) (hin : Within r (rgn.region i))
    (k j : Nat) (hj : j ≤ i) (hk : j + k = rgn.cnt) : findLoop rgn r.base r.stop k j = i := by
  induction k generalizing j with
  | zero => omega
  | succ k ih =>
    rw [findLoop, h.stop_mod (by omega)]
    split
    · next hcase =>
        -- Both regions have the first address of the range.
        refine h.ordered.index_unique (x := r.base) (by omega) hi ?_ ?_
        · unfold Range.Has Range.stop at *
          omega
        · unfold Within Range.Has Range.stop at *
          omega
    · next hcase =>
        refine ih (j + 1) ?_ (by omega)
        rcases Nat.lt_or_eq_of_le hj with hlt | rfl
        · exact hlt
        · exact absurd hin hcase

/-- A region cut down to a part of it. -/
theorem resized_good (h : Good rgn) (hi : i < rgn.cnt) {t : Range} (ht : 0 < t.size)
    (hin : Within t (rgn.region i)) :
    Good ⟨rgn.cnt, Function.update rgn.region i t⟩ ∧
    ∀ x, Covers rgn.cnt (Function.update rgn.region i t) x ↔
      t.Has x ∨ rgn.Reserves x ∧ ¬ (rgn.region i).Has x := by
  have hcovers : ∀ x, Covers rgn.cnt (Function.update rgn.region i t) x ↔
      t.Has x ∨ rgn.Reserves x ∧ ¬ (rgn.region i).Has x := by
    intro x
    rw [covers_set hi, h.ordered.others_iff hi]
    rfl
  refine ⟨good_of_ordered h.cnt_le (h.ordered.set ht ?_ ?_) ?_, hcovers⟩
  · intro j hj hjn
    exact le_trans (h.ordered.lt j i hj hi) hin.1
  · intro j hj hjn
    exact le_trans hin.2 (h.ordered.lt i j hj hjn)
  intro x hx
  rcases (hcovers x).mp hx with hx | hx
  · refine h.lt ⟨i, hi, le_trans hin.1 hx.1, ?_⟩
    have := hx.2
    have := hin.2
    omega
  · exact h.lt hx.1

/-- What is left of a region without a part of it. -/
theorem remains_iff (hi : i < rgn.cnt) (hin : Within r (rgn.region i)) {P : Nat → Prop}
    (hP : ∀ x, P x ↔ (rgn.region i).Has x ∧ ¬ r.Has x) (x : Nat) :
    (P x ∨ rgn.Reserves x ∧ ¬ (rgn.region i).Has x) ↔ rgn.Reserves x ∧ ¬ r.Has x := by
  have hsub : r.Has x → (rgn.region i).Has x := by
    unfold Within Range.Has at *
    omega
  rw [hP]
  tauto

/-- `lmb_free` takes the range out, or fails for want of room for a second part. -/
theorem lmbFree_good (h : Good rgn) (hr : 0 < r.size) (hi : i < rgn.cnt)
    (hin : Within r (rgn.region i)) :
    ∃ ret rgn', lmbFree rgn r.base r.size = some (ret, rgn') ∧
      (0 ≤ ret → Good rgn' ∧ (rgn'.cnt = 0 → rgn'.region = rgn.region) ∧
        ∀ x, rgn'.Reserves x ↔ rgn.Reserves x ∧ ¬ r.Has x) := by
  have hlt := h.stop_lt i hi
  have hrlt : r.stop < 2 ^ 64 := lt_of_le_of_lt hin.2 hlt
  have hfind := findLoop_eq h hr hi hin rgn.cnt 0 (Nat.zero_le i) (by omega)
  unfold lmbFree
  rw [show (r.base + r.size) % 2 ^ 64 = r.stop from Nat.mod_eq_of_lt hrlt]
  dsimp only
  rw [hfind, if_neg (by omega), h.stop_mod hi]
  obtain ⟨hbegin, hend⟩ := id hin
  have hne : rgn.cnt = 0 → ∀ region : Nat → LmbProperty, region = rgn.region := by omega
  by_cases hall : (rgn.region i).base = r.base ∧ (rgn.region i).stop = r.stop
  · -- The whole region goes.
    obtain ⟨region, hremove, hregion, hlast⟩ := lmbRemoveRegion_eq rgn hi
    rw [if_pos hall, hremove]
    have hcovers : ∀ x, Covers (rgn.cnt - 1) region x ↔ rgn.Reserves x ∧ ¬ r.Has x := by
      intro x
      rw [covers_congr hregion, covers_without hi, h.ordered.others_iff hi]
      unfold LmbRegion.Reserves Range.Has
      rw [hall.1, hall.2]
    refine ⟨0, _, rfl, fun _ => ⟨good_of_ordered ?_ ?_ ?_, hlast, hcovers⟩⟩
    · exact le_trans (Nat.sub_le _ _) h.cnt_le
    · exact h.ordered.without.congr hregion
    · exact fun x hx => h.lt ((hcovers x).mp hx).1
  rw [if_neg hall]
  by_cases hfront : (rgn.region i).base = r.base
  · have hsize : ((rgn.region i).size + 2 ^ 64 - r.size) % 2 ^ 64 = (rgn.region i).size - r.size := by
      unfold Range.stop at *
      omega
    obtain ⟨hgood, hcovers⟩ := resized_good h hi (t := ⟨r.stop, (rgn.region i).size - r.size⟩)
      (by unfold Range.stop at *; dsimp only; omega) (by unfold Within Range.stop at *; dsimp only; omega)
    rw [if_pos hfront, hsize]
    refine ⟨0, _, rfl, fun _ => ⟨hgood, fun hcnt => hne hcnt _, fun x => (hcovers x).trans ?_⟩⟩
    refine remains_iff hi hin (fun x => ?_) x
    unfold Range.Has Range.stop at *
    dsimp only
    omega
  rw [if_neg hfront]
  by_cases hback : (rgn.region i).stop = r.stop
  · have hsize : ((rgn.region i).size + 2 ^ 64 - r.size) % 2 ^ 64 = (rgn.region i).size - r.size := by
      unfold Range.stop at *
      omega
    obtain ⟨hgood, hcovers⟩ := resized_good h hi (t := ⟨(rgn.region i).base, (rgn.region i).size - r.size⟩)
      (by unfold Range.stop at *; dsimp only; omega) (by unfold Within Range.stop at *; dsimp only; omega)
    rw [if_pos hback, hsize]
    refine ⟨0, _, rfl, fun _ => ⟨hgood, fun hcnt => hne hcnt _, fun x => (hcovers x).trans ?_⟩⟩
    refine remains_iff hi hin (fun x => ?_) x
    unfold Range.Has Range.stop at *
    dsimp only
    omega
  · -- The region is cut before the hole, and what comes behind the hole is added.
    have hsize : (r.base + 2 ^ 64 - (rgn.region i).base) % 2 ^ 64 = r.base - (rgn.region i).base := by
      unfold Range.stop at *
      omega
    have hrest : ((rgn.region i).stop + 2 ^ 64 - r.stop) % 2 ^ 64 = (rgn.region i).stop - r.stop := by
      omega
    obtain ⟨hgood, hcovers⟩ := resized_good h hi (t := ⟨(rgn.region i).base, r.base - (rgn.region i).base⟩)
      (by dsimp only; omega) (by unfold Within Range.stop at *; dsimp only; omega)
    have hstop : (⟨r.stop, (rgn.region i).stop - r.stop⟩ : Range).stop = (rgn.region i).stop :=
      Nat.add_sub_cancel' hend
    obtain ⟨ret, rgn', hadd, -, hok⟩ := lmbAddRegion_good (r := ⟨r.stop, (rgn.region i).stop - r.stop⟩) hgood
      (Nat.zero_lt_of_lt hi) (by dsimp only; omega) (by rw [hstop]; exact hlt) (by
        intro j hj
        rw [hstop]
        dsimp only
        rw [Function.update_apply]
        split
        · right
          unfold Range.stop at *
          dsimp only
          omega
        · next hji =>
            have hpos := h.ordered.pos i hi
            rcases Nat.lt_or_gt_of_ne hji with hlt | hgt
            · have := h.ordered.lt j i hlt hi
              unfold Range.stop at *
              omega
            · exact .inl (h.ordered.lt i j hgt hj))
    rw [if_neg hback, hsize, hrest]
    refine ⟨ret, rgn', hadd, fun hret => ?_⟩
    obtain ⟨hgood', hpos', hcovers'⟩ := hok hret
    refine ⟨hgood', fun hcnt => absurd hcnt (by omega), fun x => ?_⟩
    rw [hcovers', LmbRegion.Reserves, hcovers, or_right_comm]
    refine remains_iff (P := fun x => Range.Has ⟨(rgn.region i).base, r.base - (rgn.region i).base⟩ x ∨
      Range.Has ⟨r.stop, (rgn.region i).stop - r.stop⟩ x) hi hin (fun x => ?_) x
    unfold Range.Has
    rw [hstop]
    unfold Range.stop at *
    dsimp only
    omega

end Freeing

/-! ## Runs -/

inductive Op where
  | reserve (r : Range)
  | free (r : Range)

/-- The table, and the addresses that were reserved and not freed since. -/
structure State where
  rgn : LmbRegion
  reserved : Nat → Bool

def Op.call : Op → LmbRegion → Option (Int × LmbRegion)
  | .reserve r, rgn => lmbReserve rgn r.base r.size
  | .free r, rgn => lmbFree rgn r.base r.size

/-- What the call says about an address. -/
def Op.track : Op → (Nat → Bool) → Nat → Bool
  | .reserve r, reserved, x => reserved x || decide (r.Has x)
  | .free r, reserved, x => reserved x && !decide (r.Has x)

def State.step (s : State) (op : Op) : Option State :=
  (op.call s.rgn).map fun p => ⟨p.2, op.track s.reserved⟩

/-- The state after `lmb_init`. -/
def State.initial (region : Nat → LmbProperty) : State := ⟨lmbInit region, fun _ => false⟩

/-- The range is not empty and its end is an address. -/
def Valid (r : Range) : Prop := 0 < r.size ∧ r.stop < 2 ^ 64
  deriving Decidable

/-- `lmb_reserve` is called on addresses that are free, and `lmb_free` within one region. -/
def Op.Fits : Op → State → Prop
  | .reserve r, s => Valid r ∧ ∀ x < r.stop, r.base ≤ x → s.reserved x = false
  | .free r, s => Valid r ∧ ∃ i < s.rgn.cnt, Within r (s.rgn.region i)

instance (op : Op) (s : State) : Decidable (op.Fits s) :=
  match op with
  | .reserve _ => inferInstanceAs (Decidable (_ ∧ _))
  | .free _ => inferInstanceAs (Decidable (_ ∧ _))

/-- The calls that may be made, and that do not fail. -/
def State.Allowed (s : State) (op : Op) : Prop := op.Fits s ∧ ∀ p ∈ op.call s.rgn, 0 ≤ p.1
  deriving Decidable

/-- An emptied table is filled again below the region that was removed last, or with that very
    region, and the first two elements do not touch. -/
def Op.Refills : Op → LmbRegion → Prop
  | .reserve r, rgn =>
    rgn.cnt = 0 → lmbRegionsAdjacent rgn 0 1 = 0 ∧ (r.base < (rgn.region 0).base ∨ r = rgn.region 0)
  | .free _, _ => True

instance (op : Op) (rgn : LmbRegion) : Decidable (op.Refills rgn) :=
  match op with
  | .reserve _ => inferInstanceAs (Decidable (_ → _))
  | .free _ => inferInstanceAs (Decidable True)

/-- `lmb_is_reserved` tells what is reserved, and the table is sorted and within its bounds. -/
def State.Exact (s : State) : Prop :=
  (∀ addr < 2 ^ 64, lmbIsReserved s.rgn addr = s.reserved addr) ∧
  s.rgn.cnt ≤ maxLmbRegions ∧ Ordered s.rgn.cnt s.rgn.region

/-- What every call keeps, once there was one. -/
structure Tracked (s : State) : Prop where
  good : Good s.rgn
  reserves_iff : ∀ x, s.rgn.Reserves x ↔ s.reserved x = true
  stale : s.rgn.cnt = 0 → Valid (s.rgn.region 0)

section Runs

variable {s : State} {op : Op} {r : Range}

theorem Tracked.exact (h : Tracked s) : s.Exact := by
  refine ⟨fun addr _ => ?_, h.good.cnt_le, h.good.ordered⟩
  rw [Bool.eq_iff_iff, lmbIsReserved_iff h.good, h.reserves_iff]

/-- A table with one region. -/
theorem good_single (region : Nat → LmbProperty) (hr : Valid (region 0)) :
    Good ⟨1, region⟩ ∧ ∀ x, Covers 1 region x ↔ (region 0).Has x := by
  have hpos : ∀ i < 1, i = 0 := fun i hi => Nat.lt_one_iff.mp hi
  refine ⟨⟨Nat.le_of_ble_eq_true rfl, ⟨fun i hi => ?_, fun i j hij hj => ?_⟩, fun i hi => ?_⟩,
    fun x => ?_⟩
  · rw [hpos i hi]
    exact hr.1
  · rw [hpos j hj] at hij
    cases hij
  · rw [hpos i hi]
    exact hr.2
  rw [covers_split (Nat.zero_lt_one)]
  refine or_iff_left ?_
  rintro ⟨j, hj, hne, -⟩
  omega

/-- The first region replaces the empty one. -/
theorem step_initial (region : Nat → LmbProperty) (hallowed : (State.initial region).Allowed op) :
    ∃ s', (State.initial region).step op = some s' ∧ Tracked s' := by
  cases op with
  | reserve r =>
    obtain ⟨⟨hr, -⟩, -⟩ := hallowed
    have hfirst : (Function.update (lmbInit region).region 0 r) 0 = r := Function.update_self ..
    obtain ⟨hgood, hcovers⟩ := good_single (Function.update (lmbInit region).region 0 r)
      (by rw [hfirst]; exact hr)
    refine ⟨⟨⟨1, Function.update (lmbInit region).region 0 r⟩, Op.track (.reserve r) fun _ => false⟩, ?_,
      hgood, fun x => ?_, fun hcnt => absurd hcnt Nat.one_ne_zero⟩
    · rfl
    · refine (hcovers x).trans ?_
      simp only [hfirst, Op.track, Bool.false_or, decide_eq_true_eq]
  | free r =>
    obtain ⟨⟨hr, i, hi, hin⟩, -⟩ := hallowed
    have hzero : i = 0 := Nat.lt_one_iff.mp hi
    subst hzero
    have h2 : r.stop ≤ 0 := hin.2
    have h3 := hr.1
    unfold Range.stop at h2
    omega

/-- The range is apart from what is reserved. -/
theorem apart_of_free (h : Tracked s) (hr : Valid r)
    (hfree : ∀ x < r.stop, r.base ≤ x → s.reserved x = false) :
    Apart s.rgn r := by
  intro j hj
  refine Range.apart (fun x hx hxj => ?_) hr.1 (h.good.ordered.pos j hj)
  have := (h.reserves_iff x).mp ⟨j, hj, hxj⟩
  rw [hfree x hx.2 hx.1] at this
  exact Bool.false_ne_true this

/-- Refilling an emptied table. -/
theorem lmbReserve_empty {rgn : LmbRegion} (hcnt : rgn.cnt = 0) :
    lmbReserve rgn r.base r.size
      = if lmbRegionsAdjacent rgn 0 1 = 0 then
          some (0, ⟨1, if r.base < (rgn.region 0).base then Function.update rgn.region 0 r else rgn.region⟩)
        else none := by
  rw [lmbReserve, lmbAddRegion, if_neg (by omega), hcnt]
  by_cases hadj : lmbRegionsAdjacent rgn 0 1 = 0
  · have hjoin : joinNext rgn 0 0 = some (0, rgn) := if_neg fun h => h.2 hadj
    rw [if_pos hadj]
    simp only [scanLoop, hjoin, lmbInsert, hcnt, insertLoop]
    rfl
  · have hjoin : joinNext rgn 0 0 = none := by
      rw [joinNext, LmbRegion.last, if_pos hcnt, if_pos ⟨by norm_num, hadj⟩, lmbCoalesceRegions,
        lmbRemoveRegion,
        if_pos hcnt]
      rfl
    rw [if_neg hadj]
    simp only [scanLoop, hjoin]

theorem Tracked.free_of_empty (h : Tracked s) (hcnt : s.rgn.cnt = 0) (x : Nat) :
    s.reserved x = false := by
  rw [← Bool.not_eq_true, ← h.reserves_iff]
  rintro ⟨i, hi, -⟩
  omega

theorem track_reserve_iff (reserved : Nat → Bool) (x : Nat) :
    Op.track (.reserve r) reserved x = true ↔ reserved x = true ∨ r.Has x := by
  rw [Op.track, Bool.or_eq_true, decide_eq_true_eq]

theorem track_free_iff (reserved : Nat → Bool) (x : Nat) :
    Op.track (.free r) reserved x = true ↔ reserved x = true ∧ ¬ r.Has x := by
  rw [Op.track, Bool.and_eq_true, Bool.not_eq_true', decide_eq_false_iff_not]

/-- A call keeps the table, and on an emptied one if it refills it. -/
theorem step_tracked (h : Tracked s) (hallowed : s.Allowed op) (hrefills : op.Refills s.rgn) :
    ∃ s', s.step op = some s' ∧ Tracked s' := by
  obtain ⟨hop, hret⟩ := hallowed
  cases op with
  | reserve r =>
    obtain ⟨hr, hfree⟩ := hop
    by_cases hcnt : s.rgn.cnt = 0
    · obtain ⟨hadj, hwhere⟩ := hrefills hcnt
      have hcall := lmbReserve_empty (r := r) hcnt
      rw [if_pos hadj] at hcall
      generalize hregion : (if r.base < (s.rgn.region 0).base then Function.update s.rgn.region 0 r
        else s.rgn.region) = region at hcall
      have hfirst : region 0 = r := by
        rw [← hregion]
        split
        · exact Function.update_self ..
        · next hge => exact (hwhere.resolve_left hge).symm
      obtain ⟨hgood, hcovers⟩ := good_single region (by rw [hfirst]; exact hr)
      refine ⟨⟨⟨1, region⟩, Op.track (.reserve r) s.reserved⟩, ?_, hgood, fun x => ?_,
        fun hcnt => absurd hcnt Nat.one_ne_zero⟩
      · rw [State.step, Op.call, hcall]
        rfl
      · refine (hcovers x).trans ?_
        rw [hfirst, track_reserve_iff, h.free_of_empty hcnt]
        exact (or_iff_right nofun).symm
    · obtain ⟨ret, rgn', hcall, -, hok⟩ := lmbAddRegion_good h.good (Nat.pos_of_ne_zero hcnt) hr.1 hr.2
        (apart_of_free h hr hfree)
      obtain ⟨hgood, hpos, hcovers⟩ := hok (hret (ret, rgn') hcall)
      refine ⟨⟨rgn', Op.track (.reserve r) s.reserved⟩, ?_, hgood, fun x => ?_,
        fun hcnt => absurd hcnt (Nat.pos_iff_ne_zero.mp hpos)⟩
      · rw [State.step, Op.call, lmbReserve, hcall]
        rfl
      · rw [hcovers, h.reserves_iff, track_reserve_iff]
  | free r =>
    obtain ⟨hr, i, hi, hin⟩ := hop
    obtain ⟨ret, rgn', hcall, hok⟩ := lmbFree_good h.good hr.1 hi hin
    obtain ⟨hgood, hstale, hcovers⟩ := hok (hret (ret, rgn') hcall)
    refine ⟨⟨rgn', Op.track (.free r) s.reserved⟩, ?_, hgood, fun x => ?_, fun hcnt => ?_⟩
    · rw [State.step, Op.call, hcall]
      rfl
    · rw [hcovers, h.reserves_iff, track_free_iff]
    · -- What was removed last is behind the end now.
      rw [hstale hcnt]
      exact ⟨h.good.ordered.pos 0 (by omega), h.good.stop_lt 0 (by omega)⟩

/-- An emptied table that is not refilled keeps the region that was removed last. -/
theorem not_exact_of_not_refills (h : Tracked s) (hallowed : s.Allowed op)
    (hrefills : ¬ op.Refills s.rgn)
    {s' : State} (hstep : s.step op = some s') : ¬ s'.Exact := by
  cases op with
  | free r => exact absurd trivial hrefills
  | reserve r =>
    obtain ⟨⟨hr, -⟩, -⟩ := hallowed
    obtain ⟨hcnt, hwhere⟩ := Classical.not_imp.mp hrefills
    have hstale := h.stale hcnt
    rw [State.step, Op.call, lmbReserve_empty hcnt] at hstep
    by_cases hadj : lmbRegionsAdjacent s.rgn 0 1 = 0
    · obtain ⟨hge, hne⟩ := not_or.mp fun hor => hwhere ⟨hadj, hor⟩
      rw [if_pos hadj, if_neg hge] at hstep
      obtain rfl := Option.some.inj hstep
      rintro ⟨hexact, -, -⟩
      refine hne (Range.ext_of_has hr.1 hstale.1 fun x hx => ?_)
      obtain ⟨hgood, hcovers⟩ := good_single _ hstale
      have hx := hexact x (lt_of_lt_of_le hx (max_le hr.2.le hstale.2.le))
      rw [Bool.eq_iff_iff, lmbIsReserved_iff hgood, track_reserve_iff, h.free_of_empty hcnt] at hx
      rw [← hcovers x]
      exact ((or_iff_right nofun).symm).trans hx.symm
    · rw [if_neg hadj] at hstep
      exact absurd hstep.symm (Option.some_ne_none _)

/-- **The reserved regions of every run.** After `lmb_init` and at least one call, `lmb_is_reserved`
    holds for exactly the addresses that were reserved and not freed since, and the table is sorted,
    disjoint and within its bounds, as long as every `lmb_reserve` on an emptied table refills it;
    one that does not breaks this. -/
theorem lmbIsReserved_exact (region : Nat → LmbProperty) (ops : List Op)
    (hrun : Run.AlongExec State.step (fun s op => s.Allowed op ∧ op.Refills s.rgn) (State.initial region) ops) :
    ∃ s, Run.exec State.step (State.initial region) ops = some s ∧ (ops ≠ [] → s.Exact) ∧
      ∀ op, s.Allowed op → ((∃ s', s.step op = some s' ∧ s'.Exact) ↔ op.Refills s.rgn) := by
  cases ops with
  | nil =>
    refine ⟨_, rfl, fun h => absurd rfl h, fun op hop => iff_of_true ?_ ?_⟩
    · obtain ⟨s', hs', htracked⟩ := step_initial region hop
      exact ⟨s', hs', htracked.exact⟩
    · cases op with
      | reserve r => exact fun hcnt => absurd hcnt Nat.one_ne_zero
      | free r => trivial
  | cons op ops =>
    obtain ⟨hfirst, hrest⟩ := hrun
    obtain ⟨s₁, hs₁, htracked₁⟩ := step_initial region hfirst.1
    obtain ⟨s, hs, htracked⟩ := Run.exec_invariant (fun s op hI hC => step_tracked hI hC.1 hC.2) ops s₁ htracked₁
      (hrest s₁ hs₁)
    refine ⟨s, by rw [Run.exec, hs₁]; exact hs, fun _ => htracked.exact,
      fun op hop => ⟨?_, fun hrefills => ?_⟩⟩
    · rintro ⟨s', hs', hexact⟩
      by_contra hrefills
      exact not_exact_of_not_refills htracked hop hrefills hs' hexact
    · obtain ⟨s', hs', htracked'⟩ := step_tracked htracked hop hrefills
      exact ⟨s', hs', htracked'.exact⟩

/-- A table of zeros, as `lmb_init` finds it in the bss. -/
def zeros : Nat → LmbProperty := fun _ => ⟨0, 0⟩

/-- Regions are split, removed down to the last, and one below is added. -/
def splitAndRefill : List Op :=
  [.reserve ⟨32, 8⟩, .reserve ⟨64, 8⟩, .free ⟨34, 2⟩, .free ⟨64, 8⟩, .free ⟨32, 2⟩, .free ⟨36, 4⟩,
    .reserve ⟨16, 8⟩, .reserve ⟨24, 8⟩]

theorem lmbIsReserved_exact_splitAndRefill :
    ∃ s, Run.exec State.step (State.initial zeros) splitAndRefill = some s ∧ s.Exact := by
  obtain ⟨s, hs, hexact, -⟩ := lmbIsReserved_exact zeros splitAndRefill (by decide +kernel)
  exact ⟨s, hs, hexact nofun⟩

/-- A region is reserved, freed, and one above it is reserved. -/
def refillAbove (r : Range) : List Op := [.reserve r, .free r, .reserve ⟨32, 8⟩]

/-- After `lmb_init` every address is reserved. A region above the one that was freed is not
    entered, the old one is reserved again; and behind a region that starts at 0 the array is left.
    -/
theorem lmbReserve_keeps_freed :
    lmbIsReserved (State.initial zeros).rgn 5 = true ∧
    Run.AlongExec State.step State.Allowed (State.initial zeros) (refillAbove ⟨16, 8⟩) ∧
    (Run.exec State.step (State.initial zeros) (refillAbove ⟨16, 8⟩)).map (fun s =>
      (lmbIsReserved s.rgn 32, s.reserved 32, lmbIsReserved s.rgn 16, s.reserved 16))
      = some (false, true, true, false) ∧
    Run.AlongExec State.step State.Allowed (State.initial zeros) (refillAbove ⟨0, 8⟩) ∧
    (Run.exec State.step (State.initial zeros) (refillAbove ⟨0, 8⟩)).isNone = true := by
  decide +kernel

end Runs

end Lmb
