import RkUboot.Lib.OpenAddress
import RkUboot.Lib.Run

set_option autoImplicit false

/-! # The hash table of the environment (`lib/hashtable.c`)

Open addressing with double hashing. Slot 0 is never used: the field `used` of a slot is 0 for a
slot that was never used, -1 for a deleted entry, and otherwise the first slot of the key. Callbacks
and `change_ok` are not set, and allocations succeed.

A search for a new key remembers a deleted slot only if it is the first one of the key. In a table
without a never used slot it comes back to the first slot, and a new key then goes there even if the
slot belongs to another key. -/

namespace HashTable

open OpenAddress

/-- A C string, without its terminator. -/
abbrev Str := List UInt8

/-! ## The table -/

/-- What a live slot holds besides its key: `used` and `entry.data`. -/
structure Entry where
  used : Nat
  data : Str

structure Htab where
  size : Nat
  filled : Nat
  table : Nat → Slot Str Entry

/-- The loop of `isprime`, in which `div` is 32 bits wide. -/
def isprimeLoop (number : Nat) : Nat → Nat → Bool
  | 0, div => decide (number % div ≠ 0)
  | k + 1, div =>
    if div * div % 2 ^ 32 < number ∧ number % div ≠ 0 then isprimeLoop number k (div + 2)
    else decide (number % div ≠ 0)

/-- `isprime`. The loop ends at the latest with `div = number`. -/
def isprime (number : Nat) : Bool := isprimeLoop number number 3

/-- The loop of `hcreate_r`, `k` rounds at most; `nel` is a `size_t`, the argument of `isprime` is
    not. -/
def nextPrime : Nat → Nat → Option Nat
  | 0, _ => none
  | k + 1, nel => if isprime (nel % 2 ^ 32) then some nel else nextPrime k ((nel + 2) % 2 ^ 64)

/-- `hcreate_r` for a table that does not exist yet. -/
def hcreateR (k nel : Nat) : Option Htab :=
  (nextPrime k (nel ||| 1)).map fun size => ⟨size % 2 ^ 32, 0, fun _ => .free⟩

/-- The number for a key, from its last character on. -/
def keyValue (key : Str) : Nat :=
  key.foldr (fun c hval => (hval * 16 + c.toNat) % 2 ^ 32) (key.length % 2 ^ 32)

/-- `hval`: the first slot of a key. -/
def Htab.hval (htab : Htab) (key : Str) : Nat :=
  if keyValue key % htab.size = 0 then 1 else keyValue key % htab.size

/-- `hval2`: by how much a search steps back. -/
def Htab.hval2 (htab : Htab) (key : Str) : Nat :=
  1 + htab.hval key % ((htab.size + 2 ^ 32 - 2) % 2 ^ 32)

/-- `ACTION`, with the data to enter. -/
inductive Action where
  | find
  | enter (data : Str)

/-- `_compare_and_overwrite_entry`; `none` is to keep searching. -/
def compareAndOverwriteEntry (key : Str) (action : Action) (htab : Htab) (hval idx : Nat) :
    Option Htab :=
  match htab.table idx with
  | .live key' e =>
    if e.used = hval ∧ key' = key then
      match action with
      | .find => some htab
      | .enter data =>
        some { htab with table := Function.update htab.table idx (.live key' { e with data := data }) }
    else none
  | _ => none

/-- How a search ends: at the entry of the key, or at a slot at which it stops. -/
inductive Outcome where
  | hit (idx : Nat) (htab : Htab)
  | stop (idx : Nat)

/-- The loop of `hsearch_r`, `k` rounds at most. -/
def searchLoop (key : Str) (action : Action) (htab : Htab) : Nat → Nat → Outcome
  | 0, idx => .stop idx
  | k + 1, idx =>
    let idx := back htab.size (htab.hval2 key) idx
    if idx = htab.hval key then .stop idx
    else
      match compareAndOverwriteEntry key action htab (htab.hval key) idx with
      | some htab' => .hit idx htab'
      | none => if (htab.table idx).isFree then .stop idx else searchLoop key action htab k idx

/-- The search of `hsearch_r`. -/
def search (key : Str) (action : Action) (htab : Htab) : Outcome :=
  if (htab.table (htab.hval key)).isFree then .stop (htab.hval key)
  else
    match compareAndOverwriteEntry key action htab (htab.hval key) (htab.hval key) with
    | some htab' => .hit (htab.hval key) htab'
    | none => searchLoop key action htab htab.size (htab.hval key)

/-- The slot for a new key: `first_deleted` is the first slot of the key or none. -/
def newSlot (key : Str) (htab : Htab) (idx : Nat) : Nat :=
  match htab.table (htab.hval key) with
  | .deleted => htab.hval key
  | _ => idx

/-- Model of `hsearch_r`: its result, the slot of `*retval`, and the table. -/
def hsearchR (key : Str) (action : Action) (htab : Htab) : Nat × Option Nat × Htab :=
  match search key action htab with
  | .hit idx htab' => (idx, some idx, htab')
  | .stop idx =>
    match action with
    | .find => (0, none, htab)
    | .enter data =>
      if htab.filled = htab.size then (0, none, htab)
      else
        (1, some (newSlot key htab idx),
          { htab with
            table := Function.update htab.table (newSlot key htab idx) (.live key ⟨htab.hval key, data⟩)
            filled := htab.filled + 1 })

/-- Model of `hdelete_r`. -/
def hdeleteR (key : Str) (htab : Htab) : Bool × Htab :=
  let idx := (hsearchR key .find htab).1
  if idx = 0 then (false, htab)
  else (true, { htab with table := Function.update htab.table idx .deleted, filled := htab.filled - 1 })

/-- The data that `FIND` gives. -/
def findData (key : Str) (htab : Htab) : Option Str :=
  match (hsearchR key .find htab).2.1 with
  | none => none
  | some idx =>
    match htab.table idx with
    | .live _ e => some e.data
    | _ => none

/-! ## The size -/

variable {filled idx j k nel number t : Nat}

/-- `div` and the odd numbers below it do not divide. -/
theorem isprimeLoop_spec (hodd : number % 2 = 1) (k div : Nat) (hdiv : div % 2 = 1)
    (h3 : 3 ≤ div) (hk : number ≤ div + 2 * k)
    (hbefore : ∀ d, d % 2 = 1 → 3 ≤ d → d < div → number % d ≠ 0)
    (h : isprimeLoop number k div = true) :
    ∃ last, (∀ d, d % 2 = 1 → 3 ≤ d → d ≤ last → number % d ≠ 0) ∧
      (number ≤ last * last % 2 ^ 32 ∨ number < last) := by
  have hnext : number % div ≠ 0 → ∀ d, d % 2 = 1 → 3 ≤ d → d ≤ div → number % d ≠ 0 := by
    intro hne d hd h3d hle
    rcases Nat.lt_or_eq_of_le hle with hlt | rfl
    · exact hbefore d hd h3d hlt
    · exact hne
  induction k generalizing div with
  | zero =>
    have hne : number % div ≠ 0 := of_decide_eq_true h
    refine ⟨div, hnext hne, .inr ?_⟩
    rcases Nat.lt_or_eq_of_le (by omega) with hlt | rfl
    · exact hlt
    · exact absurd (Nat.mod_self _) hne
  | succ k ih =>
    rw [isprimeLoop] at h
    split at h
    · next hgo =>
        refine ih (div + 2) (by omega) (by omega) (by omega) ?_ h ?_
        · intro d hd h3d hlt
          exact hnext hgo.2 d hd h3d (by omega)
        intro hne d hd h3d hle
        rcases Nat.lt_or_eq_of_le hle with hlt | rfl
        · exact hnext hgo.2 d hd h3d (by omega)
        · exact hne
    · next hend =>
        have hne : number % div ≠ 0 := of_decide_eq_true h
        refine ⟨div, hnext hne, .inl ?_⟩
        by_contra hlt
        exact hend ⟨by omega, hne⟩

/-- The sizes that are accepted: primes from 5 on, and 1. -/
theorem isprime_spec (hodd : number % 2 = 1) (hlt : number < 2 ^ 32)
    (h : isprime number = true) : number = 1 ∨ (number.Prime ∧ 5 ≤ number) := by
  by_cases hone : number = 1
  · exact .inl hone
  right
  obtain ⟨last, hnone, hlast⟩ := isprimeLoop_spec hodd number 3 rfl le_rfl (by omega)
    (fun d _ h3 hlt => by omega) h
  have hmin := Nat.minFac_dvd number
  have hminPrime := Nat.minFac_prime hone
  have hminOdd : number.minFac % 2 = 1 := by
    by_contra heven
    have : 2 ∣ number := (Nat.dvd_of_mod_eq_zero (by omega)).trans hmin
    omega
  have hmin3 : 3 ≤ number.minFac := by
    have := hminPrime.two_le
    omega
  have hbeyond : last < number.minFac := by
    by_contra hle
    exact hnone _ hminOdd hmin3 (by omega) (Nat.mod_eq_zero_of_dvd hmin)
  have hprime : number.Prime := by
    by_contra hcomp
    have hsq := Nat.minFac_sq_le_self (by omega) hcomp
    rw [pow_two] at hsq
    have hsmall : number.minFac < 2 ^ 16 := by
      by_contra hbig
      have := Nat.mul_le_mul (Nat.le_of_not_lt hbig) (Nat.le_of_not_lt hbig)
      omega
    have hless := Nat.mul_lt_mul'' hbeyond hbeyond
    have hle := Nat.minFac_le (show 0 < number by omega)
    rcases hlast with hwrap | hgt
    · omega
    · omega
  refine ⟨hprime, ?_⟩
  have h3 : number ≠ 3 := by
    rintro rfl
    cases h
  omega

/-- `nextPrime` gives an odd number that `isprime` takes. -/
theorem nextPrime_spec {size : Nat} (hodd : nel % 2 = 1) (h : nextPrime k nel = some size) :
    size % 2 = 1 ∧ isprime (size % 2 ^ 32) = true := by
  induction k generalizing nel with
  | zero => exact absurd h (by simp [nextPrime])
  | succ k ih =>
    rw [nextPrime] at h
    split at h
    · next hprime =>
        obtain rfl := Option.some.inj h
        exact ⟨hodd, hprime⟩
    · exact ih (by omega) h

/-- A size that `hcreate_r` accepts. -/
structure SizeOk (size : Nat) : Prop where
  cases : size = 1 ∨ (size.Prime ∧ 5 ≤ size)
  lt : size < 2 ^ 32

variable {htab : Htab}

theorem hcreateR_spec (h : hcreateR k nel = some htab) :
    SizeOk htab.size ∧ htab.filled = 0 ∧ htab.table = fun _ => .free := by
  obtain ⟨size, hsize, rfl⟩ := Option.map_eq_some_iff.mp h
  obtain ⟨hodd, hprime⟩ := nextPrime_spec (by rw [Nat.or_mod_two_eq_one]; right; rfl) hsize
  have hodd32 : size % 2 ^ 32 % 2 = 1 := by omega
  have hlt : size % 2 ^ 32 < 2 ^ 32 := Nat.mod_lt _ (by decide)
  exact ⟨⟨isprime_spec hodd32 hlt hprime, hlt⟩, rfl, rfl⟩

/-! ## Consistent tables -/

/-- The slots on which a key is looked for. -/
def Htab.path (htab : Htab) (key : Str) (j : Nat) : Nat :=
  walk htab.size (htab.hval2 key) (htab.hval key) j

/-- A table in which a search finds its way. -/
structure Sound (htab : Htab) : Prop where
  sizeOk : SizeOk htab.size
  ok : Ok htab.path htab.size htab.table
  used : ∀ i key e, htab.table i = .live key e → e.used = htab.hval key
  zero : htab.table 0 = .free

/-- What every call keeps, as long as no entry is overwritten by another key. -/
structure Consistent (htab : Htab) : Prop extends Sound htab where
  filled : htab.filled = count htab.size htab.table

section Path

variable {htab : Htab} (key : Str)

/-- A table of one slot: the search goes to slot 0. -/
theorem path_of_one (h : htab.size = 1) : htab.hval key = 1 ∧ htab.path key 1 = 0 := by
  have hval : htab.hval key = 1 := by
    rw [Htab.hval, h, Nat.mod_one, if_pos rfl]
  refine ⟨hval, ?_⟩
  simp only [Htab.path, walk, Htab.hval2, hval, h]
  decide

theorem hval_range (h : 5 ≤ htab.size) : 1 ≤ htab.hval key ∧ htab.hval key < htab.size := by
  have := Nat.mod_lt (keyValue key) (show 0 < htab.size by omega)
  unfold Htab.hval
  split <;> omega

theorem hval2_range (h : 5 ≤ htab.size) (hlt : htab.size < 2 ^ 32) :
    0 < htab.hval2 key ∧ htab.hval2 key < htab.size := by
  have hmod : (htab.size + 2 ^ 32 - 2) % 2 ^ 32 = htab.size - 2 := by omega
  have := Nat.mod_lt (htab.hval key) (show 0 < htab.size - 2 by omega)
  rw [Htab.hval2, hmod]
  omega

theorem hval_slot (h : SizeOk htab.size) : 1 ≤ htab.hval key ∧ htab.hval key ≤ htab.size := by
  rcases h.cases with hone | ⟨-, h5⟩
  · rw [(path_of_one key hone).1]
    omega
  · have := hval_range key h5
    omega

/-- The path before it comes back: slots of the table, all of them different from the first. -/
theorem path_slot (h : SizeOk htab.size) (hj : j < htab.size) :
    1 ≤ htab.path key j ∧ htab.path key j ≤ htab.size := by
  rcases h.cases with hone | ⟨-, h5⟩
  · obtain rfl : j = 0 := by omega
    exact hval_slot key h
  · have hval := hval_range key h5
    exact walk_range (hval2_range key h5 h.lt).2 ⟨hval.1, hval.2.le⟩ j

/-- A path that comes back has met every slot. -/
theorem path_return (h : SizeOk htab.size) (ht : 0 < t)
    (hback : htab.path key t = htab.hval key)
    (hle : t ≤ htab.size) : t = htab.size ∧ ∀ i, 1 ≤ i → i ≤ htab.size → ∃ l < t, htab.path key l = i := by
  rcases h.cases with hone | ⟨hprime, h5⟩
  · obtain rfl : t = 1 := by omega
    have := path_of_one key hone
    omega
  have hval := hval_range key h5
  obtain ⟨hpos, hlt⟩ := hval2_range key h5 h.lt
  have hfull : t = htab.size := by
    by_contra hne
    exact walk_inj hprime hpos hlt ht (by omega) hback.symm
  subst hfull
  exact ⟨rfl, fun i h1 hn => walk_surj hprime hpos hlt ⟨hval.1, hval.2.le⟩ ⟨h1, hn⟩⟩

/-- A path of several slots comes back. -/
theorem path_period (h5 : 5 ≤ htab.size) (hlt : htab.size < 2 ^ 32) :
    htab.path key htab.size = htab.hval key := by
  have hval := hval_range key h5
  exact walk_period (hval2_range key h5 hlt).2 ⟨hval.1, hval.2.le⟩

end Path

/-! ## The search -/

variable {e : Entry}

section Search

variable {htab : Htab} {key : Str} (action : Action)

/-- The table after the entry of the key was found in slot `idx`. -/
def overwrite (htab : Htab) (key : Str) (e : Entry) (idx : Nat) : Action → Htab
  | .find => htab
  | .enter data => { htab with table := Function.update htab.table idx (.live key { e with data := data }) }

theorem compareAndOverwriteEntry_live (hslot : htab.table idx = .live key e)
    (hused : e.used = htab.hval key) :
    compareAndOverwriteEntry key action htab (htab.hval key) idx = some (overwrite htab key e idx action) := by
  unfold compareAndOverwriteEntry
  rw [hslot]
  dsimp only
  rw [if_pos ⟨hused, rfl⟩]
  cases action <;> rfl

theorem compareAndOverwriteEntry_miss {hval : Nat} (hmiss : ∀ e, htab.table idx ≠ .live key e) :
    compareAndOverwriteEntry key action htab hval idx = none := by
  unfold compareAndOverwriteEntry
  split
  · next key' e hslot =>
      rw [if_neg]
      rintro ⟨-, rfl⟩
      exact hmiss e hslot
  · rfl

/-- The slots before `t` on the path of the key are in use, and not by the key. -/
def Passed (htab : Htab) (key : Str) (t : Nat) : Prop :=
  ∀ l < t, (htab.table (htab.path key l)).isFree = false ∧ ∀ e, htab.table (htab.path key l) ≠ .live key e

theorem Passed.succ (h : Passed htab key t)
    (hfree : (htab.table (htab.path key t)).isFree = false)
    (hmiss : ∀ e, htab.table (htab.path key t) ≠ .live key e) : Passed htab key (t + 1) := by
  intro l hl
  rcases Nat.lt_or_eq_of_le (Nat.le_of_lt_succ hl) with hlt | rfl
  · exact h l hlt
  · exact ⟨hfree, hmiss⟩

/-- How the loop can end, when it goes on from step `t` of the path. -/
theorem searchLoop_cases (hok : Sound htab) (k t : Nat) (hpassed : Passed htab key (t + 1))
    (hk : t + k = htab.size) :
    (∃ j e, htab.table (htab.path key j) = .live key e ∧
      searchLoop key action htab k (htab.path key t)
        = .hit (htab.path key j) (overwrite htab key e (htab.path key j) action)) ∨
    (∃ j, 0 < j ∧ j ≤ htab.size ∧ Passed htab key j ∧
      (htab.path key j = htab.hval key ∨ (htab.table (htab.path key j)).isFree = true) ∧
      searchLoop key action htab k (htab.path key t) = .stop (htab.path key j)) := by
  induction k generalizing t with
  | zero =>
    -- A path of one slot has met slot 0, which is free, and any other path is back at its start.
    obtain rfl : t = htab.size := by omega
    right
    have hlast := hpassed htab.size (Nat.lt_succ_self _)
    rcases hok.sizeOk.cases with hone | ⟨-, h5⟩
    · rw [hone, (path_of_one key hone).2, hok.zero] at hlast
      exact absurd hlast.1 (by simp [Slot.isFree])
    · refine ⟨htab.size, by omega, le_refl _, fun l hl => hpassed l (by omega), .inl ?_, rfl⟩
      exact path_period key h5 hok.sizeOk.lt
  | succ k ih =>
    have hnext : back htab.size (htab.hval2 key) (htab.path key t) = htab.path key (t + 1) := rfl
    rw [searchLoop, hnext]
    by_cases hback : htab.path key (t + 1) = htab.hval key
    · right
      refine ⟨t + 1, by omega, by omega, hpassed, .inl hback, ?_⟩
      rw [if_pos hback]
    rw [if_neg hback]
    by_cases hhit : ∃ e, htab.table (htab.path key (t + 1)) = .live key e
    · obtain ⟨e, he⟩ := hhit
      left
      refine ⟨t + 1, e, he, ?_⟩
      rw [compareAndOverwriteEntry_live action he (hok.used _ _ _ he)]
    · rw [not_exists] at hhit
      rw [compareAndOverwriteEntry_miss action hhit]
      by_cases hfree : (htab.table (htab.path key (t + 1))).isFree = true
      · right
        refine ⟨t + 1, by omega, by omega, hpassed, .inr hfree, ?_⟩
        rw [if_pos hfree]
      · rw [if_neg hfree]
        exact ih (t + 1) (hpassed.succ (Bool.eq_false_iff.mpr hfree) hhit) (by omega)

/-- How a search can end: at the entry of the key, or where the key is not in the table. -/
theorem search_cases (key : Str) (hok : Sound htab) :
    (∃ idx e, htab.table idx = .live key e ∧
      search key action htab = .hit idx (overwrite htab key e idx action)) ∨
    (∃ j, j ≤ htab.size ∧ Passed htab key j ∧
      ((0 < j ∧ htab.path key j = htab.hval key) ∨ (htab.table (htab.path key j)).isFree = true) ∧
      search key action htab = .stop (htab.path key j)) := by
  unfold search
  by_cases hfree : (htab.table (htab.hval key)).isFree = true
  · right
    refine ⟨0, by omega, fun l hl => absurd hl (Nat.not_lt_zero l), .inr hfree, ?_⟩
    rw [if_pos hfree]
    rfl
  rw [if_neg hfree]
  by_cases hhit : ∃ e, htab.table (htab.hval key) = .live key e
  · obtain ⟨e, he⟩ := hhit
    left
    refine ⟨htab.hval key, e, he, ?_⟩
    rw [compareAndOverwriteEntry_live action he (hok.used _ _ _ he)]
  · rw [not_exists] at hhit
    rw [compareAndOverwriteEntry_miss action hhit]
    have hfirst : Passed htab key (0 + 1) :=
      Passed.succ (fun l hl => nomatch hl) (Bool.eq_false_iff.mpr hfree) hhit
    rcases searchLoop_cases action hok htab.size 0 hfirst (Nat.zero_add _) with
      ⟨j, e, he, hrun⟩ | ⟨j, hpos, hle, hpassed, hstop, hrun⟩
    · exact .inl ⟨_, e, he, hrun⟩
    refine .inr ⟨j, hle, hpassed, ?_, hrun⟩
    rcases hstop with hback | hstop
    · omega
    · exact .inr hstop

/-- Where a search stops, the key is not in the table. -/
theorem Sound.absent (hok : Sound htab) (hle : j ≤ htab.size)
    (hpassed : Passed htab key j)
    (hstop : (0 < j ∧ htab.path key j = htab.hval key) ∨ (htab.table (htab.path key j)).isFree = true)
    (e : Entry) : ¬ Holds htab.table key e := by
  apply hok.ok.absent (t := j) (fun l hl w => (hpassed l hl).2 w)
  rcases hstop with ⟨hpos, hback⟩ | hfree
  · exact .inl (path_return key hok.sizeOk hpos hback hle).1.ge
  · exact .inr hfree

/-- `FIND` gives the data of the key. -/
theorem findData_eq_some_iff (hok : Sound htab) {data : Str} :
    findData key htab = some data ↔ Holds htab.table key ⟨htab.hval key, data⟩ := by
  rcases search_cases .find key hok with ⟨idx, e, he, hrun⟩ | ⟨j, hle, hpassed, hstop, hrun⟩
  · have hfind : findData key htab = some e.data := by
      simp only [findData, hsearchR, hrun, he]
    have hentry : e = ⟨htab.hval key, e.data⟩ := by
      rw [← hok.used _ _ _ he]
    rw [hfind, Option.some.injEq]
    constructor
    · rintro rfl
      exact ⟨idx, hentry ▸ he⟩
    · intro hdata
      exact congrArg Entry.data (hok.ok.holds_inj ⟨idx, he⟩ hdata)
  · have hfind : findData key htab = none := by
      simp only [findData, hsearchR, hrun]
    rw [hfind]
    exact ⟨nofun, fun h => absurd h (hok.absent hle hpassed hstop _)⟩

/-- Tables of one size that hold the same for a key give the same data for it. -/
theorem findData_congr {htab' : Htab} (hok : Sound htab) (hok' : Sound htab')
    (hsize : htab'.size = htab.size)
    (hsame : ∀ e, Holds htab'.table key e ↔ Holds htab.table key e) :
    findData key htab' = findData key htab := by
  have hval : htab'.hval key = htab.hval key := by rw [Htab.hval, Htab.hval, hsize]
  ext data
  rw [findData_eq_some_iff hok', findData_eq_some_iff hok, hval, hsame]

end Search

/-! ## One call -/

section Calls

variable {htab : Htab} {key : Str} {i t : Nat} {data : Str}

/-- The table with an entry for `key` in slot `i`. -/
def Htab.put (htab : Htab) (key data : Str) (i filled : Nat) : Htab :=
  { htab with table := Function.update htab.table i (.live key ⟨htab.hval key, data⟩), filled := filled }

theorem Sound.put (hok : Sound htab) (hother : ∀ j e, htab.table j = .live key e → j = i)
    (ht : t < htab.size)
    (hpath : htab.path key t = i) (hbefore : ∀ l < t, (htab.table (htab.path key l)).isFree = false)
    (filled : Nat) : Sound (htab.put key data i filled) := by
  have hslot := path_slot key hok.sizeOk ht
  refine ⟨hok.sizeOk, hok.ok.put hother ht hpath hbefore, ?_, ?_⟩
  · intro j key' e hj
    simp only [Htab.put, Function.update_apply] at hj
    split at hj
    · obtain ⟨rfl, rfl⟩ := Slot.live.inj hj
      rfl
    · exact hok.used j key' e hj
  · simp only [Htab.put, Function.update_apply]
    rw [if_neg (by omega)]
    exact hok.zero

theorem Consistent.put (hok : Consistent htab) (hother : ∀ j e, htab.table j = .live key e → j = i)
    (ht : t < htab.size) (hpath : htab.path key t = i)
    (hbefore : ∀ l < t, (htab.table (htab.path key l)).isFree = false)
    (hfilled : filled + (if (htab.table i).isLive then 1 else 0) = htab.filled + 1) :
    Consistent (htab.put key data i filled) := by
  have hslot := path_slot key hok.sizeOk ht
  rw [hpath] at hslot
  refine ⟨hok.toSound.put hother ht hpath hbefore filled, ?_⟩
  have hcount := count_update (T := htab.table) (s := .live key ⟨htab.hval key, data⟩) hslot
  rw [hok.filled] at hfilled
  have hlive : (if (Slot.live key (⟨htab.hval key, data⟩ : Entry)).isLive then 1 else 0) = 1 := rfl
  rw [hlive] at hcount
  simp only [Htab.put]
  omega

/-- An entry for the key where there was none of another key changes the data of that key only. -/
theorem findData_put (hok : Sound htab) (hput : Sound (htab.put key data i filled))
    (hother : ∀ j e, htab.table j = .live key e → j = i)
    (hfree : ∀ key' e, htab.table i = .live key' e → key' = key) (key' : Str) :
    findData key' (htab.put key data i filled) = if key' = key then some data else findData key' htab := by
  split
  · next heq =>
      subst heq
      rw [findData_eq_some_iff hput]
      exact ⟨i, Function.update_self ..⟩
  · next hne =>
      apply findData_congr hok hput rfl
      intro e
      have := holds_put (v := ⟨htab.hval key, data⟩) hother hfree key' e
      rwa [if_neg hne] at this

/-- There is a slot for the key: the key is in the table, or a slot was never used, or the first
    slot of the key holds no entry, or the table is full (and the key is refused). -/
def HasRoom (htab : Htab) (key : Str) : Prop :=
  (findData key htab).isSome ∨ (∃ i ∈ Finset.Icc 1 htab.size, (htab.table i).isFree) ∨
    (htab.table (htab.hval key)).isLive = false ∨ htab.filled = htab.size
  deriving Decidable

/-- The cases of a call that enters a key: the key is overwritten, it is refused, it gets a slot of
    its own, or it takes the slot of another key. -/
theorem enter_cases (hok : Consistent htab) (key data : Str) :
    (∃ t e, t < htab.size ∧ htab.table (htab.path key t) = .live key e ∧
      (∀ l < t, (htab.table (htab.path key l)).isFree = false) ∧ (findData key htab).isSome ∧
      hsearchR key (.enter data) htab = (htab.path key t, some (htab.path key t),
        htab.put key data (htab.path key t) htab.filled)) ∨
    ((∀ e, ¬ Holds htab.table key e) ∧ (findData key htab).isSome = false ∧
      ((htab.filled = htab.size ∧ hsearchR key (.enter data) htab = (0, none, htab)) ∨
      (htab.filled ≠ htab.size ∧ ∃ t, t < htab.size ∧
        (∀ l < t, (htab.table (htab.path key l)).isFree = false) ∧
        hsearchR key (.enter data) htab = (1, some (htab.path key t),
          htab.put key data (htab.path key t) (htab.filled + 1)) ∧
        (((htab.table (htab.path key t)).isLive = false ∧
            (t = 0 ∨ (htab.table (htab.path key t)).isFree = true)) ∨
          (t = 0 ∧ (htab.table (htab.path key t)).isLive = true ∧
            ∀ i, 1 ≤ i → i ≤ htab.size → (htab.table i).isFree = false))))) := by
  have hsize : 0 < htab.size := by
    rcases hok.sizeOk.cases with hone | ⟨-, h5⟩ <;> omega
  rcases search_cases (.enter data) key hok.toSound with ⟨idx, e, he, hrun⟩ | ⟨j, hle, hpassed, hstop, hrun⟩
  · left
    obtain ⟨t, ht, rfl, hbefore⟩ := hok.ok.reach idx key e he
    have hfind : findData key htab = some e.data := by
      rw [findData_eq_some_iff hok.toSound, ← hok.used _ _ _ he]
      exact ⟨_, he⟩
    refine ⟨t, e, ht, he, hbefore, by rw [hfind]; rfl, ?_⟩
    simp only [hsearchR, hrun, overwrite, Htab.put, hok.used _ _ _ he]
  · right
    have habsent := hok.toSound.absent hle hpassed hstop
    have hfind : (findData key htab).isSome = false := by
      by_contra hsome
      rw [Bool.not_eq_false, Option.isSome_iff_exists] at hsome
      obtain ⟨d, hd⟩ := hsome
      exact habsent _ ((findData_eq_some_iff hok.toSound).mp hd)
    refine ⟨habsent, hfind, ?_⟩
    by_cases hfull : htab.filled = htab.size
    · left
      refine ⟨hfull, ?_⟩
      simp only [hsearchR, hrun, if_pos hfull]
    right
    refine ⟨hfull, ?_⟩
    by_cases hdeleted : htab.table (htab.hval key) = .deleted
    · refine ⟨0, hsize, fun l hl => absurd hl (Nat.not_lt_zero l), ?_, .inl ⟨?_, .inl rfl⟩⟩
      · simp only [hsearchR, hrun, if_neg hfull, newSlot, hdeleted]
        rfl
      · show (htab.table (htab.hval key)).isLive = false
        rw [hdeleted]
        rfl
    · have hslot : newSlot key htab (htab.path key j) = htab.path key j := by
        unfold newSlot
        split
        · next h => exact absurd h hdeleted
        · rfl
      -- The first slot was passed, or the search stopped there.
      have hfirst : 0 < j → (htab.table (htab.path key 0)).isLive = true := by
        intro hpos
        have hused := (hpassed 0 hpos).1
        change (htab.table (htab.hval key)).isFree = false at hused
        show (htab.table (htab.hval key)).isLive = true
        cases hs : htab.table (htab.hval key) with
        | free => rw [hs] at hused; exact absurd hused (by simp [Slot.isFree])
        | deleted => exact absurd hs hdeleted
        | live key' e => rfl
      rcases hstop with ⟨hpos, hback⟩ | hstop
      · refine ⟨0, hsize, fun l hl => absurd hl (Nat.not_lt_zero l), ?_, .inr ⟨rfl, hfirst hpos, ?_⟩⟩
        · rw [hback] at hslot hrun
          simp only [hsearchR, hrun, if_neg hfull, hslot]
          rfl
        · intro i h1 hn
          obtain ⟨l, hl, rfl⟩ := (path_return key hok.sizeOk hpos hback hle).2 i h1 hn
          exact (hpassed l hl).1
      · refine ⟨j, ?_, fun l hl => (hpassed l hl).1, ?_, .inl ⟨?_, .inr hstop⟩⟩
        · -- At the end of the path, the first slot is met again, or the one slot of the table is taken.
          by_contra hge
          obtain rfl : j = htab.size := by omega
          rcases hok.sizeOk.cases with hone | ⟨-, h5⟩
          · apply hfull
            rw [hok.filled, count_eq_iff, hone]
            intro i h1 hn
            obtain rfl : i = 1 := by omega
            have := hfirst hsize
            change (htab.table (htab.hval key)).isLive = true at this
            rwa [(path_of_one key hone).1] at this
          · rw [path_period key h5 hok.sizeOk.lt] at hstop
            have hused := (hpassed 0 hsize).1
            change (htab.table (htab.hval key)).isFree = false at hused
            rw [hused] at hstop
            cases hstop
        · simp only [hsearchR, hrun, if_neg hfull, hslot]
          rfl
        cases hs : htab.table (htab.path key j) with
        | free => rfl
        | deleted => rfl
        | live key' e => rw [hs] at hstop; exact absurd hstop (by simp [Slot.isFree])

/-- A new key, or the old slot of the key: no other slot has it. -/
theorem other_of_absent (h : ∀ e, ¬ Holds htab.table key e)
    (hj : htab.table j = .live key e) : j = i := absurd ⟨j, hj⟩ (h e)

theorem not_live {key' : Str} (h : (htab.table i).isLive = false) :
    htab.table i ≠ .live key' e := by
  intro hslot
  rw [hslot] at h
  exact absurd h (by simp [Slot.isLive])

/-- `ENTER` with room for the key changes the data of that key only, or it fails and changes
    nothing. -/
theorem enter_spec (data : Str) (hok : Consistent htab) (hroom : HasRoom htab key) :
    Consistent (hsearchR key (.enter data) htab).2.2 ∧
    (if (hsearchR key (.enter data) htab).1 = 0 then (hsearchR key (.enter data) htab).2.2 = htab
      else ∀ key', findData key' (hsearchR key (.enter data) htab).2.2
        = if key' = key then some data else findData key' htab) := by
  rcases enter_cases hok key data with ⟨t, e, ht, he, hbefore, -, hrun⟩ |
    ⟨habsent, hnone, ⟨-, hrun⟩ | ⟨hfull, t, ht, hbefore, hrun, hslot⟩⟩
  · have hother : ∀ j e', htab.table j = .live key e' → j = htab.path key t := fun j e' hj =>
      hok.ok.unique j _ key e' e hj he
    have hput : Consistent (htab.put key data (htab.path key t) htab.filled) :=
      hok.put hother ht rfl hbefore (by rw [he]; rfl)
    have hpos := (path_slot key hok.sizeOk ht).1
    rw [hrun]
    refine ⟨hput, ?_⟩
    rw [if_neg (by dsimp only; omega)]
    refine findData_put hok.toSound hput.toSound hother fun key' e' hj => ?_
    rw [he] at hj
    exact (Slot.live.inj hj).1.symm
  · rw [hrun]
    exact ⟨hok, by rw [if_pos rfl]⟩
  have hdead : (htab.table (htab.path key t)).isLive = false := by
    rcases hslot with ⟨hdead, -⟩ | ⟨rfl, hlive, hall⟩
    · exact hdead
    exfalso
    rcases hroom with hsome | ⟨i, hi, hfree⟩ | hfirst | hroom
    · rw [hnone] at hsome
      cases hsome
    · rw [Finset.mem_Icc] at hi
      rw [hall i hi.1 hi.2] at hfree
      cases hfree
    · change (htab.table (htab.hval key)).isLive = true at hlive
      rw [hfirst] at hlive
      cases hlive
    · exact hfull hroom
  have hother : ∀ j e, htab.table j = .live key e → j = htab.path key t := fun j e hj =>
    other_of_absent habsent hj
  have hput : Consistent (htab.put key data (htab.path key t) (htab.filled + 1)) :=
    hok.put hother ht rfl hbefore (by rw [hdead]; rfl)
  rw [hrun]
  refine ⟨hput, ?_⟩
  rw [if_neg one_ne_zero]
  exact findData_put hok.toSound hput.toSound hother fun key' e hj => absurd hj (not_live hdead)

/-- `ENTER` without room removes the entry in the first slot of the key. -/
theorem enter_overwrites (data : Str) (hok : Consistent htab) (hroom : ¬ HasRoom htab key) :
    ∃ key' ≠ key, (findData key' htab).isSome ∧
      findData key' (hsearchR key (.enter data) htab).2.2 = none := by
  unfold HasRoom at hroom
  push Not at hroom
  obtain ⟨hnotFound, hall, hlive, hnotFull⟩ := hroom
  rcases enter_cases hok key data with ⟨t, e, ht, he, hbefore, hsome, hrun⟩ |
    ⟨habsent, -, ⟨hfull, -⟩ | ⟨-, t, ht, hbefore, hrun, hslot⟩⟩
  · exact absurd hsome hnotFound
  · omega
  have hfirst : t = 0 := by
    rcases hslot with ⟨hdead, rfl | hfree⟩ | ⟨rfl, -⟩
    · rfl
    · have hslot := path_slot key hok.sizeOk ht
      exact absurd hfree (hall _ (Finset.mem_Icc.mpr hslot))
    · rfl
  subst hfirst
  have hother : ∀ j e, htab.table j = .live key e → j = htab.path key 0 := fun j e hj =>
    other_of_absent habsent hj
  have hput : Sound (htab.put key data (htab.path key 0) (htab.filled + 1)) :=
    hok.toSound.put hother ht rfl hbefore _
  -- The entry in the first slot is the only one of its key.
  obtain ⟨key', e, he⟩ : ∃ key' e, htab.table (htab.path key 0) = .live key' e := by
    change (htab.table (htab.path key 0)).isLive ≠ false at hlive
    cases hs : htab.table (htab.path key 0) with
    | free => rw [hs] at hlive; exact absurd rfl hlive
    | deleted => rw [hs] at hlive; exact absurd rfl hlive
    | live key' e => exact ⟨key', e, rfl⟩
  have hne : key' ≠ key := by
    rintro rfl
    exact habsent e ⟨_, he⟩
  have hfound : findData key' htab = some e.data := by
    rw [findData_eq_some_iff hok.toSound, ← hok.used _ _ _ he]
    exact ⟨_, he⟩
  refine ⟨key', hne, by rw [hfound]; rfl, ?_⟩
  rw [hrun, Option.eq_none_iff_forall_ne_some]
  intro d hd
  obtain ⟨j, hj⟩ := (findData_eq_some_iff hput).mp hd
  simp only [Htab.put, Function.update_apply] at hj
  split at hj
  · exact hne (Slot.live.inj hj).1.symm
  · next hj' => exact hj' (hok.ok.unique j _ key' _ _ hj he)

/-- `hdelete_r` marks the slot of the key as deleted, or finds no entry. -/
theorem hdeleteR_cases (hok : Sound htab) (key : Str) :
    (∃ idx e, htab.table idx = .live key e ∧ 1 ≤ idx ∧ idx ≤ htab.size ∧
      hdeleteR key htab = (true,
        { htab with table := Function.update htab.table idx .deleted, filled := htab.filled - 1 }) ∧
      Sound (hdeleteR key htab).2) ∨
    (findData key htab = none ∧ hdeleteR key htab = (false, htab)) := by
  rcases search_cases .find key hok with ⟨idx, e, he, hrun⟩ | ⟨j, hle, hpassed, hstop, hrun⟩
  · left
    obtain ⟨t, ht, hpath, -⟩ := hok.ok.reach idx key e he
    have hslot := path_slot key hok.sizeOk ht
    rw [hpath] at hslot
    have hdelete : hdeleteR key htab = (true,
        { htab with table := Function.update htab.table idx .deleted, filled := htab.filled - 1 }) := by
      simp only [hdeleteR, hsearchR, hrun]
      rw [if_neg (by omega)]
    refine ⟨idx, e, he, hslot.1, hslot.2, hdelete, ?_⟩
    rw [hdelete]
    refine ⟨hok.sizeOk, hok.ok.delete, ?_, ?_⟩
    · intro i key' e' hi
      simp only [Function.update_apply] at hi
      split at hi
      · cases hi
      · exact hok.used i key' e' hi
    · simp only [Function.update_apply]
      rw [if_neg (by omega)]
      exact hok.zero
  · right
    refine ⟨?_, ?_⟩
    · simp only [findData, hsearchR, hrun]
    · simp only [hdeleteR, hsearchR, hrun, if_true]

/-- `hdelete_r` removes the data of the key only. -/
theorem delete_spec (hok : Consistent htab) (key : Str) :
    Consistent (hdeleteR key htab).2 ∧
    ∀ key', findData key' (hdeleteR key htab).2 = if key' = key then none else findData key' htab := by
  rcases hdeleteR_cases hok.toSound key with ⟨idx, e, he, h1, hn, hdelete, hsound⟩ | ⟨hnone, hdelete⟩
  · rw [hdelete] at hsound ⊢
    refine ⟨⟨hsound, ?_⟩, fun key' => ?_⟩
    · have hcount := count_update (T := htab.table) (s := .deleted) ⟨h1, hn⟩
      rw [he] at hcount
      have hfilled := hok.filled
      simp only [Slot.isLive, if_true, Bool.false_eq_true, if_false] at hcount ⊢
      omega
    · have hholds := fun e' => hok.ok.holds_delete he key' e'
      split
      · next heq =>
          subst heq
          rw [Option.eq_none_iff_forall_ne_some]
          intro d hd
          exact ((hholds _).mp ((findData_eq_some_iff hsound).mp hd)).1 rfl
      · next hne =>
          exact findData_congr hok.toSound hsound rfl fun e' => by rw [hholds]; simp [hne]
  · rw [hdelete]
    refine ⟨hok, fun key' => ?_⟩
    split
    · next heq => rw [heq, hnone]
    · rfl

end Calls

/-! ## Runs of calls -/

inductive Op where
  | enter (key data : Str)
  | find (key : Str)
  | delete (key : Str)

/-- A call: whether it succeeds, and the table. -/
def Op.run : Op → Htab → Bool × Htab
  | .enter key data, htab =>
    (decide ((hsearchR key (.enter data) htab).1 ≠ 0), (hsearchR key (.enter data) htab).2.2)
  | .find key, htab => (decide ((hsearchR key .find htab).1 ≠ 0), (hsearchR key .find htab).2.2)
  | .delete key, htab => hdeleteR key htab

/-- The table with the calls so far, the last one first, and whether they succeeded. -/
structure Session where
  htab : Htab
  log : List (Op × Bool)

def step (s : Session) (op : Op) : Session := ⟨(op.run s.htab).2, (op, (op.run s.htab).1) :: s.log⟩

/-- The data of the last successful `ENTER` of the key that no delete of the key follows. -/
def lastEnter (key : Str) : List (Op × Bool) → Option Str
  | [] => none
  | (.enter key' data, ok) :: log => if key = key' ∧ ok = true then some data else lastEnter key log
  | (.find _, _) :: log => lastEnter key log
  | (.delete key', _) :: log => if key = key' then none else lastEnter key log

/-- An `ENTER` has room for its key. -/
def OpHasRoom (s : Session) : Op → Prop
  | .enter key _ => HasRoom s.htab key
  | _ => True

instance (s : Session) (op : Op) : Decidable (OpHasRoom s op) := by
  cases op <;> unfold OpHasRoom <;> infer_instance

/-- The table is consistent and gives what the log says. -/
def Faithful (s : Session) : Prop :=
  Consistent s.htab ∧ ∀ key, findData key s.htab = lastEnter key s.log

theorem faithful_start (h : hcreateR k nel = some htab) :
    Faithful ⟨htab, []⟩ := by
  obtain ⟨hsize, hfilled, htable⟩ := hcreateR_spec h
  have hsound : Sound htab := by
    refine ⟨hsize, ⟨?_, ?_⟩, ?_, by rw [htable]⟩
    · intro i key e hi
      rw [htable] at hi
      cases hi
    · intro i j key e e' hi
      rw [htable] at hi
      cases hi
    · intro i key e hi
      rw [htable] at hi
      cases hi
  refine ⟨⟨hsound, ?_⟩, fun key => ?_⟩
  · rw [hfilled, htable]
    simp [count, Slot.isLive]
  rw [lastEnter, Option.eq_none_iff_forall_ne_some]
  intro d hd
  obtain ⟨i, hi⟩ := (findData_eq_some_iff hsound).mp hd
  rw [htable] at hi
  cases hi

theorem hsearchR_find (key : Str) (hok : Sound htab) :
    (hsearchR key .find htab).2.2 = htab := by
  rcases search_cases .find key hok with ⟨idx, e, he, hrun⟩ | ⟨j, -, -, -, hrun⟩
  · simp only [hsearchR, hrun, overwrite]
  · simp only [hsearchR, hrun]

theorem faithful_step (s : Session) (op : Op) (h : Faithful s) (hroom : OpHasRoom s op) :
    Faithful (step s op) := by
  obtain ⟨hok, hlog⟩ := h
  cases op with
  | enter key data =>
    obtain ⟨hput, heffect⟩ := enter_spec data hok hroom
    refine ⟨hput, fun key' => ?_⟩
    simp only [step, Op.run, lastEnter, decide_eq_true_eq]
    split at heffect
    · next hfail =>
        rw [heffect, hlog, if_neg]
        exact fun h => h.2 hfail
    · next hdone =>
        rw [heffect, hlog]
        simp only [hdone, ne_eq, not_false_eq_true, and_true]
  | find key =>
    simp only [step, Op.run, Faithful, hsearchR_find key hok.toSound, lastEnter]
    exact ⟨hok, hlog⟩
  | delete key =>
    obtain ⟨hput, heffect⟩ := delete_spec hok key
    refine ⟨hput, fun key' => ?_⟩
    simp only [step, Op.run, lastEnter, heffect, hlog]

/-- **The hash table is a map.** From a new table of any size, in every run in which each `ENTER`
    has room for its key: `FIND` gives the data of the last successful `ENTER` that no delete of the
    key follows, and fails otherwise. And an `ENTER` leaves the entries of the other keys alone
    exactly if it has room. -/
theorem findData_eq_lastEnter {k nel : Nat} {htab : Htab} (hcreate : hcreateR k nel = some htab)
    (ops : List Op) (hroom : Run.Along step OpHasRoom ⟨htab, []⟩ ops) :
    (∀ key, findData key (ops.foldl step ⟨htab, []⟩).htab = lastEnter key (ops.foldl step ⟨htab, []⟩).log) ∧
    (∀ key data, HasRoom (ops.foldl step ⟨htab, []⟩).htab key ↔
      ∀ key' ≠ key, findData key' (step (ops.foldl step ⟨htab, []⟩) (.enter key data)).htab
        = findData key' (ops.foldl step ⟨htab, []⟩).htab) := by
  obtain ⟨hok, hlog⟩ := Run.along_invariant faithful_step ops _ (faithful_start hcreate) hroom
  refine ⟨hlog, fun key data => ⟨fun h key' hne => ?_, fun hsame => ?_⟩⟩
  · obtain ⟨-, heffect⟩ := enter_spec data hok h
    simp only [step, Op.run]
    split at heffect
    · rw [heffect]
    · rw [heffect, if_neg hne]
  · by_contra hfull
    obtain ⟨key', hne, hsome, hnone⟩ := enter_overwrites data hok hfull
    have := hsame key' hne
    simp only [step, Op.run] at this
    rw [← this, hnone] at hsome
    cases hsome

/-- A table of five slots. -/
def fiveSlots : Htab := ⟨5, 0, fun _ => .free⟩

theorem findData_eq_lastEnter_reuse :
    findData [97] ([Op.enter [97] [1], .delete [97], .enter [97] [2]].foldl step ⟨fiveSlots, []⟩).htab
      = some [2] :=
  (findData_eq_lastEnter (show hcreateR 1 5 = some fiveSlots from rfl)
    [.enter [97] [1], .delete [97], .enter [97] [2]] (by decide)).1 [97]

/-- Five keys that take the five slots, of which `b` is deleted again. -/
def fiveKeys : List Op :=
  [.enter [97] [1], .enter [98] [2], .enter [99] [3], .enter [101] [4], .enter [100] [5], .delete [98]]

/-- Now `f` takes the slot of `a`. -/
theorem enter_takes_slot :
    hcreateR 1 5 = some fiveSlots ∧
    findData [97] (fiveKeys.foldl step ⟨fiveSlots, []⟩).htab = some [1] ∧
    lastEnter [97] ((fiveKeys ++ [Op.enter [102] [6]]).foldl step ⟨fiveSlots, []⟩).log = some [1] ∧
    findData [97] ((fiveKeys ++ [Op.enter [102] [6]]).foldl step ⟨fiveSlots, []⟩).htab = none :=
  ⟨rfl, by decide⟩

end HashTable
