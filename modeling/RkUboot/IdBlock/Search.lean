import RkUboot.IdBlock.Update
import RkUboot.Lib.Bytes

set_option autoImplicit false

/-! # Finding the ID blocks (`rkloader/idblock.c`)

`FindSerialBlocks` looks for a number of good blocks in a row. After its loop it takes a cursor at the
end of the table as a sign that nothing was found. But the cursor is there, too, when the last block of
the run is the last block of the table; such a run is lost. `FindIDBlock` goes through the good blocks
with it and `FindAllIDB` records the ones that start with the ID tag, so neither ever gets to the last
block of the `MAX_BLOCK_SEARCH` they search. -/

namespace IdBlock

/-! ## The source -/

/-- The `while` loop of `FindSerialBlocks`, with `k` entries left: `iBegin` and `iIndex` behind it, or
    nothing if it reads before the start of the table. -/
def findSerialLoop (state : Nat → UInt8) (iLen : Int) : Nat → Int → Int → Int → Option (Int × Int)
  | 0, iBegin, _, iIndex => some (iBegin, iIndex)
  | k + 1, iBegin, iCount, iIndex =>
    if iBegin < 0 then none
    else
      let good := state iBegin.toNat = 0
      let iCount := if good then iCount + 1 else 0
      let iIndex := if good then iIndex else iBegin + 1
      if iLen ≤ iCount then some (iBegin + 1, iIndex)
      else findSerialLoop state iLen k (iBegin + 1) iCount iIndex

/-- Model of `FindSerialBlocks`. -/
def findSerialBlocks (state : Nat → UInt8) (iNFBlockLen iBegin iLen : Int) : Option Int :=
  (findSerialLoop state iLen (iNFBlockLen - iBegin).toNat iBegin 0 iBegin).map
    (fun r => if iNFBlockLen ≤ r.1 then -1 else r.2)

/-- `MAX_BLOCK_SEARCH`. -/
def maxBlockSearch : Nat := 200

/-- The chip as the search sees it. No block is read twice, so any pattern of read failures is given by
    the blocks. -/
structure Chip where
  /-- `m_flashInfo.BlockState`; good blocks have a zero. -/
  blockState : Nat → UInt8
  /-- `g_FlashInfo.BlockSize`. -/
  blockSize : UInt32
  /-- `g_id_block_size` before the search. -/
  idBlockSize : UInt32
  /-- The sectors, by their physical number. -/
  flash : Nat → Sector
  /-- The read of this block fails. -/
  fails : Nat → Bool

namespace Chip

/-- `g_id_block_size` in the search. -/
def sectorsPerBlock (chip : Chip) : UInt32 :=
  if chip.blockSize ≠ 0 then chip.blockSize else chip.idBlockSize

/-- The first word of block `i`. -/
def firstWord (chip : Chip) (i : Nat) : Nat :=
  (Mem.ofList (chip.flash (i * chip.sectorsPerBlock.toNat % 2 ^ 32))).u32 0

/-- The block is read without an error and starts with the tag. -/
def Tagged (chip : Chip) (i : Nat) : Prop := chip.fails i = false ∧ chip.firstWord i = 0xfcdc8c3b
  deriving Decidable

end Chip

/-- The `for` loop of `FindIDBlock` from block `i` on, `k` rounds at most: the result, and `*iPos`. -/
def findIDBlockLoop (chip : Chip) : Nat → Int → Option (Int × Int)
  | 0, _ => none
  | k + 1, i =>
    if (maxBlockSearch : Int) ≤ i then some (-1, 0)
    else if i < 0 then some (-1, 0)
    else if chip.Tagged i.toNat then some (0, i)
    else
      match findSerialBlocks chip.blockState maxBlockSearch (i + 1) 1 with
      | none => none
      | some i => findIDBlockLoop chip k i

/-- Model of `FindIDBlock`. -/
def findIDBlock (chip : Chip) (iStart : Int) : Option (Int × Int) :=
  match findSerialBlocks chip.blockState maxBlockSearch iStart 1 with
  | none => none
  | some i => if i < 0 then some (-1, 0) else findIDBlockLoop chip (maxBlockSearch + 1) i

/-- The loop of `FindAllIDB`, with room for `k` more blocks. -/
def findAllLoop (chip : Chip) : Nat → Int → Option (List Int)
  | 0, _ => some []
  | k + 1, iStart =>
    match findIDBlock chip iStart with
    | none => none
    | some (iRet, iIndex) =>
      if iRet < 0 then some [] else (findAllLoop chip k (iIndex + 1)).map (fun rest => iIndex :: rest)

/-- Model of `FindAllIDB`: what it records in `g_IDBlockOffset`; the result is the number of it. -/
def findAllIDB (chip : Chip) : Option (List Int) := findAllLoop chip 5 0

/-! ## Runs of good blocks -/

/-- `iLen` good blocks in a row from `p` on, inside the table and not before `iBegin`. -/
structure Free (state : Nat → UInt8) (iNFBlockLen iBegin iLen p : Int) : Prop where
  start : iBegin ≤ p
  nonneg : 0 ≤ p
  inside : p + iLen ≤ iNFBlockLen
  zero : ∀ i : Nat, p ≤ i → (i : Int) < p + iLen → state i = 0

/-- The first such run. -/
def FirstFree (state : Nat → UInt8) (iNFBlockLen iBegin iLen p : Int) : Prop :=
  Free state iNFBlockLen iBegin iLen p ∧ ∀ q < p, ¬ Free state iNFBlockLen iBegin iLen q

section Serial

variable {state : Nat → UInt8} {n b len : Int}

variable {iBegin iCount iIndex p : Int}

theorem FirstFree.unique {q : Int} (hp : FirstFree state n b len p) (hq : FirstFree state n b len q) :
    p = q := by
  rcases lt_trichotomy p q with h | h | h
  · exact absurd hp.1 (hq.2 p h)
  · exact h
  · exact absurd hq.1 (hp.2 q h)

/-- What the loop has seen: `iCount` good blocks from `iIndex` to `iBegin`, and no run from before. -/
structure Scanned (state : Nat → UInt8) (n b len iBegin iCount iIndex : Int) : Prop where
  start : b ≤ iIndex
  nonneg : 0 ≤ iIndex
  count : iIndex + iCount = iBegin
  short : 0 ≤ iCount ∧ iCount < len
  zero : ∀ i : Nat, iIndex ≤ i → (i : Int) < iBegin → state i = 0
  none : ∀ q < iIndex, ¬ Free state n b len q

theorem Scanned.zero_succ (h : Scanned state n b len iBegin iCount iIndex)
    (hgood : state iBegin.toNat = 0) (i : Nat) (hlo : iIndex ≤ i) (hhi : (i : Int) < iBegin + 1) :
    state i = 0 := by
  by_cases hlast : (i : Int) = iBegin
  · have hi : iBegin.toNat = i := by omega
    rwa [hi] at hgood
  · exact h.zero i hlo (by omega)

theorem Scanned.good (h : Scanned state n b len iBegin iCount iIndex)
    (hgood : state iBegin.toNat = 0) (hshort : iCount + 1 < len) :
    Scanned state n b len (iBegin + 1) (iCount + 1) iIndex := by
  have hcount := h.count
  have hpos := h.short.1
  exact ⟨h.start, h.nonneg, by omega, by omega, h.zero_succ hgood, h.none⟩

/-- A bad block ends every run that could have it. -/
theorem Scanned.bad (h : Scanned state n b len iBegin iCount iIndex)
    (hbad : state iBegin.toNat ≠ 0) : Scanned state n b len (iBegin + 1) 0 (iBegin + 1) := by
  have hcount := h.count
  have hnonneg := h.nonneg
  have hstart := h.start
  have hshort := h.short
  refine ⟨by omega, by omega, by omega, by omega, fun i hlo hhi => absurd hlo (by omega), ?_⟩
  intro q hq hfree
  by_cases hbefore : q < iIndex
  · exact h.none q hbefore hfree
  · exact hbad (hfree.zero iBegin.toNat (by omega) (by omega))

/-- The loop finds the first run, or gets to the end of the table. -/
theorem findSerialLoop_spec (k : Nat) (hk : iBegin + k = n)
    (h : Scanned state n b len iBegin iCount iIndex) :
    ∃ e x, findSerialLoop state len k iBegin iCount iIndex = some (e, x) ∧
      (FirstFree state n b len x ∧ x + len = e ∨ n ≤ e ∧ ∀ p, ¬ Free state n b len p) := by
  have hcount := h.count
  have hnonneg := h.nonneg
  have hshort := h.short
  induction k generalizing iBegin iCount iIndex with
  | zero =>
    refine ⟨iBegin, iIndex, rfl, .inr ⟨by omega, fun p hfree => ?_⟩⟩
    have hinside := hfree.inside
    by_cases hbefore : p < iIndex
    · exact h.none p hbefore hfree
    · omega
  | succ k ih =>
    rw [findSerialLoop, if_neg (by omega)]
    simp only
    by_cases hgood : state iBegin.toNat = 0
    · rw [if_pos hgood, if_pos hgood]
      by_cases hfull : len ≤ iCount + 1
      · -- the run is complete
        rw [if_pos hfull]
        exact ⟨_, _, rfl, .inl ⟨⟨⟨h.start, h.nonneg, by omega,
          fun i hlo hhi => h.zero_succ hgood i hlo (by omega)⟩, h.none⟩, by omega⟩⟩
      · rw [if_neg hfull]
        have hnext := h.good hgood (by omega)
        exact ih (by omega) hnext hnext.count hnext.nonneg hnext.short
    · rw [if_neg hgood, if_neg hgood, if_neg (by omega)]
      have hnext := h.bad hgood
      exact ih (by omega) hnext hnext.count hnext.nonneg hnext.short

/-- What `FindSerialBlocks` finds: the first run, unless it reaches the end of the table. -/
theorem findSerialBlocks_spec (state : Nat → UInt8) (n : Int) (hb : 0 ≤ b) (hlen : 1 ≤ len) :
    (∃ p, FirstFree state n b len p ∧ p + len < n ∧ findSerialBlocks state n b len = some p) ∨
      (∀ p, FirstFree state n b len p → p + len = n) ∧
        findSerialBlocks state n b len = some (-1) := by
  unfold findSerialBlocks
  by_cases hrange : b < n
  · have hscan : Scanned state n b len b 0 b :=
      ⟨le_refl b, hb, by omega, by omega, fun i hlo hhi => absurd hlo (by omega),
        fun q hq hfree => absurd hfree.start (by omega)⟩
    obtain ⟨e, x, hloop, hfound⟩ := findSerialLoop_spec (n - b).toNat (by omega) hscan
    rw [hloop, Option.map_some]
    obtain ⟨hfirst, he⟩ | ⟨he, hnone⟩ := hfound
    · have hinside := hfirst.1.inside
      by_cases hend : n ≤ e
      · rw [if_pos hend]
        refine .inr ⟨fun p hp => ?_, rfl⟩
        rw [hp.unique hfirst]
        omega
      · rw [if_neg hend]
        exact .inl ⟨x, hfirst, by omega, rfl⟩
    · rw [if_pos he]
      exact .inr ⟨fun p hp => absurd hp.1 (hnone p), rfl⟩
  · have hzero : (n - b).toNat = 0 := by omega
    rw [hzero, findSerialLoop, Option.map_some, if_pos (by omega)]
    refine .inr ⟨fun p hp => ?_, rfl⟩
    have hstart := hp.1.start
    have hinside := hp.1.inside
    omega

/-- Before the start of the table there is nothing to read. -/
theorem findSerialBlocks_negative (hb : b < 0) (hn : b < n) : findSerialBlocks state n b len = none := by
  obtain ⟨k, hk⟩ : ∃ k : Nat, (n - b).toNat = k + 1 := ⟨(n - b).toNat - 1, by omega⟩
  rw [findSerialBlocks, hk, findSerialLoop, if_pos hb]
  rfl

theorem findSerialBlocks_behind (hn : n ≤ b) : findSerialBlocks state n b len = some (-1) := by
  have hzero : (n - b).toNat = 0 := by omega
  rw [findSerialBlocks, hzero, findSerialLoop, Option.map_some, if_pos hn]

/-- There is a first run if there is one. -/
theorem Free.exists_first (h : Free state n b len p) : ∃ q, FirstFree state n b len q := by
  obtain ⟨q, hq⟩ : ∃ q : Nat, Free state n b len q := ⟨p.toNat, by rwa [Int.toNat_of_nonneg h.nonneg]⟩
  classical
  have hex : ∃ q : Nat, Free state n b len q := ⟨q, hq⟩
  refine ⟨Nat.find hex, Nat.find_spec hex, fun r hr hfree => ?_⟩
  have hnonneg := hfree.nonneg
  exact Nat.find_min hex (m := r.toNat) (by omega) (by rwa [Int.toNat_of_nonneg hnonneg])

/-- The result is the start of the first run, or -1 if there is none. -/
def FindsFirst (state : Nat → UInt8) (n b len : Int) : Prop :=
  (∃ p, FirstFree state n b len p ∧ findSerialBlocks state n b len = some p) ∨
    (∀ p, ¬ Free state n b len p) ∧ findSerialBlocks state n b len = some (-1)

theorem findsFirst_iff (hlen : 1 ≤ len) :
    FindsFirst state n b len ↔
      (0 ≤ b ∨ n ≤ b) ∧ ∀ p, FirstFree state n b len p → p + len ≠ n := by
  by_cases hb : 0 ≤ b
  · obtain ⟨p, hfirst, hend, hret⟩ | ⟨hlast, hret⟩ := findSerialBlocks_spec state n hb hlen
    · refine iff_of_true (.inl ⟨p, hfirst, hret⟩) ⟨.inl hb, fun q hq => ?_⟩
      rw [hq.unique hfirst]
      omega
    · unfold FindsFirst
      rw [hret]
      constructor
      · rintro (⟨p, hfirst, heq⟩ | ⟨hnone, -⟩)
        · have hnonneg := hfirst.1.nonneg
          have := Option.some.inj heq
          omega
        · exact ⟨.inl hb, fun p hp => absurd hp.1 (hnone p)⟩
      · rintro ⟨-, hne⟩
        refine .inr ⟨fun p hp => ?_, rfl⟩
        obtain ⟨q, hq⟩ := hp.exists_first
        exact hne q hq (hlast q hq)
  · by_cases hn : n ≤ b
    · refine iff_of_true (.inr ⟨fun p hp => ?_, findSerialBlocks_behind hn⟩)
        ⟨.inr hn, fun p hp => ?_⟩
      · have hnonneg := hp.nonneg
        have hinside := hp.inside
        omega
      · have hnonneg := hp.1.nonneg
        omega
    · refine iff_of_false ?_ (fun h => ?_)
      · unfold FindsFirst
        rw [findSerialBlocks_negative (by omega) (by omega)]
        rintro (⟨_, -, h⟩ | ⟨-, h⟩)
        · cases h
        · cases h
      · omega

end Serial

/-! ## ID blocks -/

/-- A good block that starts with the tag. -/
def Chip.IsId (chip : Chip) (i : Nat) : Prop := chip.blockState i = 0 ∧ chip.Tagged i
  deriving Decidable

/-- The first number from `b` on and below `e` that has the property `P`. -/
structure Least (P : Nat → Prop) (b e p : Nat) : Prop where
  start : b ≤ p
  below : p < e
  prop : P p
  first : ∀ q, b ≤ q → q < p → ¬ P q

section Least

variable {P : Nat → Prop} [DecidablePred P] {b e p : Nat}

theorem filter_range'_of_none (h : ∀ q, b ≤ q → q < e → ¬ P q) :
    (List.range' b (e - b)).filter P = [] := by
  rw [List.filter_eq_nil_iff]
  intro q hq
  rw [List.mem_range'_1] at hq
  rw [decide_eq_true_iff]
  exact h q hq.1 (by omega)

/-- The first one is the head of the list of all. -/
theorem Least.filter_range' (h : Least P b e p) :
    (List.range' b (e - b)).filter P
      = p :: (List.range' (p + 1) (e - (p + 1))).filter P := by
  have hstart := h.start
  have hbelow := h.below
  have hsplit : List.range' b (e - b)
      = List.range' b (p - b) ++ p :: List.range' (p + 1) (e - (p + 1)) := by
    rw [show e - b = (p - b) + (e - (p + 1) + 1) by omega, ← List.range'_append_1,
      show b + (p - b) = p by omega, List.range'_succ]
  rw [hsplit, List.filter_append, filter_range'_of_none h.first, List.nil_append]
  exact List.filter_cons_of_pos (decide_eq_true h.prop)

end Least

section AllBlocks

variable (chip : Chip)

/-- The next good block; the last block of the table is never one. -/
theorem findSerialBlocks_one (state : Nat → UInt8) (b : Nat) :
    (∃ p, Least (fun i => state i = 0) b 199 p ∧
        findSerialBlocks state maxBlockSearch b 1 = some (p : Int)) ∨
      (∀ p, b ≤ p → p < 199 → state p ≠ 0) ∧
        findSerialBlocks state maxBlockSearch b 1 = some (-1) := by
  have hsize : (maxBlockSearch : Int) = 200 := rfl
  have hfree : ∀ p : Nat, b ≤ p → p < 199 → state p = 0 → Free state maxBlockSearch b 1 p := by
    intro p hlo hhi hzero
    refine ⟨by omega, by omega, by omega, fun i hi hi' => ?_⟩
    obtain rfl : i = p := by omega
    exact hzero
  obtain ⟨p, hfirst, hend, hret⟩ | ⟨hlast, hret⟩ :=
    findSerialBlocks_spec state maxBlockSearch (Int.natCast_nonneg b) le_rfl
  · obtain ⟨p, rfl⟩ := Int.eq_ofNat_of_zero_le hfirst.1.nonneg
    have hstart := hfirst.1.start
    refine .inl ⟨p, ⟨by omega, by omega, hfirst.1.zero p (by omega) (by omega), ?_⟩, hret⟩
    intro q hlo hhi hzero
    exact hfirst.2 q (by omega) (hfree q hlo (by omega) hzero)
  · refine .inr ⟨fun p hlo hhi hzero => ?_, hret⟩
    obtain ⟨q, hq⟩ := (hfree p hlo hhi hzero).exists_first
    have hq' := hlast q hq
    exact hq.2 p (by omega) (hfree p hlo hhi hzero)

/-- The result of a search from block `b` on is the first ID block, or none if there is none. -/
def FindsId (b : Nat) (r : Option (Int × Int)) : Prop :=
  (∃ p, Least chip.IsId b 199 p ∧ r = some (0, (p : Int))) ∨
    (∀ p, b ≤ p → p < 199 → ¬ chip.IsId p) ∧ r = some (-1, 0)

variable {chip} in
theorem FindsId.skip {b j : Nat} {r : Option (Int × Int)} (h : FindsId chip j r) (hle : b ≤ j)
    (hnone : ∀ q, b ≤ q → q < j → ¬ chip.IsId q) : FindsId chip b r := by
  obtain ⟨p, hp, hret⟩ | ⟨hrest, hret⟩ := h
  · refine .inl ⟨p, ⟨hle.trans hp.start, hp.below, hp.prop, fun q hlo hhi => ?_⟩, hret⟩
    by_cases hq : q < j
    · exact hnone q hlo hq
    · exact hp.first q (by omega) hhi
  · refine .inr ⟨fun q hlo hhi => ?_, hret⟩
    by_cases hq : q < j
    · exact hnone q hlo hq
    · exact hrest q (by omega) hhi

/-- The search from the good block `i` on. -/
theorem findIDBlockLoop_spec (k i : Nat) (hi : i < 199) (hk : 199 - i < k)
    (hgood : chip.blockState i = 0) : FindsId chip i (findIDBlockLoop chip k i) := by
  have hsize : (maxBlockSearch : Int) = 200 := rfl
  induction k generalizing i with
  | zero => omega
  | succ k ih =>
    rw [findIDBlockLoop, if_neg (by omega), if_neg (by omega), Int.toNat_natCast]
    by_cases htag : chip.Tagged i
    · rw [if_pos htag]
      exact .inl ⟨i, ⟨le_refl i, hi, ⟨hgood, htag⟩, fun q hlo hhi => absurd hlo (by omega)⟩, rfl⟩
    rw [if_neg htag, ← Int.natCast_succ]
    refine FindsId.skip (j := i + 1) ?_ (Nat.le_succ i) (fun q hlo hhi hid => ?_)
    · obtain ⟨j, hleast, hret⟩ | ⟨hnone, hret⟩ := findSerialBlocks_one chip.blockState (i + 1)
      · rw [hret]
        have hstart := hleast.start
        exact (ih j hleast.below (by omega) hleast.prop).skip hstart
          (fun q hlo hhi hid => hleast.first q hlo hhi hid.1)
      · rw [hret]
        refine .inr ⟨fun q hlo hhi hid => hnone q hlo hhi hid.1, ?_⟩
        obtain ⟨k, rfl⟩ : ∃ m, k = m + 1 := ⟨k - 1, by omega⟩
        rfl
    · obtain rfl : q = i := by omega
      exact htag hid.2

theorem findIDBlock_spec (b : Nat) : FindsId chip b (findIDBlock chip b) := by
  unfold findIDBlock
  obtain ⟨j, hleast, hret⟩ | ⟨hnone, hret⟩ := findSerialBlocks_one chip.blockState b
  · rw [hret]
    simp only
    rw [if_neg (by omega)]
    have hloop := findIDBlockLoop_spec chip (maxBlockSearch + 1) j hleast.below
      (by have : maxBlockSearch = 200 := rfl; omega) hleast.prop
    exact hloop.skip hleast.start (fun q hlo hhi hid => hleast.first q hlo hhi hid.1)
  · rw [hret]
    exact .inr ⟨fun q hlo hhi hid => hnone q hlo hhi hid.1, rfl⟩

theorem findAllLoop_eq (k b : Nat) :
    findAllLoop chip k b
      = some ((((List.range' b (199 - b)).filter chip.IsId).take k).map Int.ofNat) := by
  induction k generalizing b with
  | zero => rfl
  | succ k ih =>
    rw [findAllLoop]
    obtain ⟨p, hp, hret⟩ | ⟨hnone, hret⟩ := findIDBlock_spec chip b
    · rw [hret, hp.filter_range']
      simp only
      rw [if_neg (by omega), ← Int.natCast_succ, ih]
      rfl
    · rw [hret, filter_range'_of_none hnone]
      rfl

/-- The blocks that are to be recorded: the first five ID blocks. -/
def Chip.firstIds (chip : Chip) : List Nat :=
  ((List.range maxBlockSearch).filter chip.IsId).take 5

/-- The last block is lost if it is one of them. -/
theorem findAllIDB_eq_iff :
    findAllIDB chip = some (chip.firstIds.map Int.ofNat) ↔
      ¬ (chip.IsId 199 ∧ ((List.range 199).filter chip.IsId).length < 5) := by
  have hall : findAllIDB chip = some ((((List.range 199).filter chip.IsId).take 5).map Int.ofNat) := by
    rw [findAllIDB, show (0 : Int) = ((0 : Nat) : Int) from rfl, findAllLoop_eq, List.range_eq_range']
  have hrange : (List.range maxBlockSearch).filter chip.IsId
      = (List.range 199).filter chip.IsId ++ if chip.IsId 199 then [199] else [] := by
    rw [show maxBlockSearch = 199 + 1 from rfl, List.range_succ, List.filter_append]
    congr 1
    split
    · next hid => exact List.filter_cons_of_pos (decide_eq_true hid)
    · next hid => exact List.filter_cons_of_neg (by simpa using hid)
  rw [hall, Option.some.injEq, Chip.firstIds, hrange]
  generalize (List.range 199).filter chip.IsId = ids
  by_cases hid : chip.IsId 199
  · rw [if_pos hid, and_iff_right hid]
    constructor
    · simp
    · simp
  · rw [if_neg hid, List.append_nil]
    exact iff_of_true rfl (fun h => hid h.1)

end AllBlocks

/-- **Search for ID blocks.** `FindSerialBlocks` gives the first run unless that one ends with the
    table (or it starts before the table), and `FindAllIDB` records the first five ID blocks unless
    the last block is one of them. -/
theorem findIDBlocks_iff (state : Nat → UInt8) (n b len : Int) (hlen : 1 ≤ len) (chip : Chip) :
    (FindsFirst state n b len ↔
        (0 ≤ b ∨ n ≤ b) ∧ ∀ p, FirstFree state n b len p → p + len ≠ n) ∧
      (findAllIDB chip = some (chip.firstIds.map Int.ofNat) ↔
        ¬ (chip.IsId 199 ∧ ((List.range 199).filter chip.IsId).length < 5)) :=
  ⟨findsFirst_iff hlen, findAllIDB_eq_iff chip⟩

/-- A chip of good blocks, in which every block from `first` on has the tag. -/
def taggedFrom (first : Nat) : Chip where
  blockState := fun _ => 0
  blockSize := 1
  idBlockSize := 0
  flash := fun i => if first ≤ i then [0x3b, 0x8c, 0xdc, 0xfc] else []
  fails := fun _ => false

theorem findIDBlocks_early :
    FindsFirst (fun _ => 0) 3 0 2 ∧ findAllIDB (taggedFrom 7) = some [7, 8, 9, 10, 11] := by
  obtain ⟨hserial, hall⟩ := findIDBlocks_iff (fun _ => 0) 3 0 2 (by decide) (taggedFrom 7)
  refine ⟨hserial.2 ⟨.inl (by decide), fun p hp hend => ?_⟩, ?_⟩
  · exact hp.2 0 (by omega) ⟨by decide, by decide, by decide, fun _ _ _ => rfl⟩
  · rw [hall.2 (by decide +kernel)]
    decide +kernel

/-- Two good blocks at the end of the table are not found, and neither is an ID block there. -/
theorem findIDBlocks_last :
    Free (fun i => if i < 1 then 1 else 0) 3 0 2 1 ∧
      findSerialBlocks (fun i => if i < 1 then 1 else 0) 3 0 2 = some (-1) ∧
      (taggedFrom 199).firstIds = [199] ∧ findAllIDB (taggedFrom 199) = some [] := by
  refine ⟨⟨by decide, by decide, by decide, fun i hlo hhi => ?_⟩, by decide, ?_, ?_⟩
  · rw [if_neg (by omega)]
  · decide +kernel
  · decide +kernel

end IdBlock
