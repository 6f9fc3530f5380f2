import RkUboot.Lib.Mem

set_option autoImplicit false

/-! # The memory of an NVMe command (`nvme/nvme.c`)

A command tells the controller its memory page by page. `nvme_setup_prps` stores the entries: `prp1`,
`prp2`, and a list in `prp_page_pool`, which goes on in the page behind it if it has more than 512
entries. `readPrps` is how a controller reads them back as the NVMe specification prescribes; what it
finds are the consecutive parts of the buffer. -/

namespace Nvme

/-- `PAGE_SIZE` -/
def pageSize : Nat := 4096

/-- `MAX_REQ_SECTOR` -/
def maxReqSector : Nat := pageSize

/-! ## The entries -/

/-- The 64-bit words from the start of `prp_page_pool` on, and the numbers of those written. -/
structure Pool where
  word : Nat → Nat
  written : List Nat

def Pool.put (s : Pool) (i v : Nat) : Pool := ⟨Function.update s.word i v, i :: s.written⟩

/-- The word at an address. -/
def Pool.fetch (s : Pool) (pool a : Nat) : Nat := s.word ((a - pool) / 8)

/-- The loop of `nvme_setup_prps`; `prp_list` begins at word `list`. -/
def prpLoop (pool : Nat) : Nat → Nat → Nat → Nat → Int → Pool → Pool
  | 0, _, _, _, _, s => s
  | fuel + 1, list, i, buf, length, s =>
    let (list, i, s) :=
      if i = pageSize >>> 3 then
        (pageSize >>> 3, 1, (s.put (pageSize >>> 3) (s.word (list + (i - 1)))).put (list + (i - 1))
          (pool + pageSize))
      else (list, i, s)
    let s := s.put (list + i) buf
    if length - pageSize ≤ 0 then s
    else prpLoop pool fuel list (i + 1) (buf + pageSize) (length - pageSize) s

/-- `nvme_setup_prps` on a command of zeros: the length it returns, `prp1`, `prp2` and the list. -/
def nvmeSetupPrps (pool totalLen buf : Nat) (s : Pool) : Nat × Nat × Nat × Pool :=
  let first := pageSize - buf % pageSize
  let length : Int := totalLen - first
  if length ≤ 0 then (totalLen, buf, 0, s)
  else if length ≤ pageSize then (totalLen, buf, buf + first, s)
  else (totalLen, buf, pool, prpLoop pool length.toNat 0 0 (buf + first) length s)

/-- The pages of a list at `a`, for `len` bytes: the last word of a page of the list is an entry only
    if it is the last one, otherwise the list goes on where it points to. -/
def readList (fetch : Nat → Nat) : Nat → Nat → Nat → List (Nat × Nat)
  | 0, _, _ => []
  | fuel + 1, a, len =>
    if len ≤ pageSize then [(fetch a, len)]
    else if a % pageSize = pageSize - 8 then readList fetch fuel (fetch a) len
    else (fetch a, pageSize) :: readList fetch fuel (a + 8) (len - pageSize)

/-- The memory of a command of `len` bytes: `prp2` is not used, the second page, or a list. -/
def readPrps (fetch : Nat → Nat) (prp1 prp2 len : Nat) : List (Nat × Nat) :=
  let first := min len (pageSize - prp1 % pageSize)
  (prp1, first) ::
    (if len - first = 0 then []
    else if len - first ≤ pageSize then [(prp2, len - first)]
    else readList fetch (len - first) prp2 (len - first))

/-! ## What a controller finds -/

/-- The segments are the consecutive parts of `len` bytes at `a`. -/
def Consecutive : Nat → Nat → List (Nat × Nat) → Prop
  | _, len, [] => len = 0
  | a, len, (b, n) :: segments => b = a ∧ n ≤ len ∧ Consecutive (a + n) (len - n) segments

theorem consecutive_singleton (a len : Nat) : Consecutive a len [(a, len)] :=
  ⟨rfl, Nat.le_refl len, Nat.sub_self len⟩

variable {pool : Nat}

/-- While the list fits in the page, its words are the entries in order: from word `i` on a controller
    finds the pages of the buffer, and the words before it are as they were. -/
theorem prpLoop_spec (hpool : pool % pageSize = 0) {fuel i buf length : Nat} {s : Pool}
    (hpos : 0 < length) (hfuel : length ≤ fuel) (hroom : length ≤ (512 - i) * pageSize)
    (hs : ∀ j ∈ s.written, j < 512) :
    (∀ j ∈ (prpLoop pool fuel 0 i buf length s).written, j < 512) ∧
    (∀ j < i, (prpLoop pool fuel 0 i buf length s).word j = s.word j) ∧
    Consecutive buf length
      (readList ((prpLoop pool fuel 0 i buf length s).fetch pool) fuel (pool + 8 * i) length) := by
  induction fuel generalizing i buf length s with
  | zero => omega
  | succ fuel ih =>
    unfold pageSize at hpool hroom
    have hput : ∀ j ∈ (s.put (0 + i) buf).written, j < 512 :=
      List.forall_mem_cons.2 ⟨by omega, hs⟩
    have hslot : (pool + 8 * i - pool) / 8 = 0 + i := by
      omega
    have hself : (s.put (0 + i) buf).word (0 + i) = buf := Function.update_self ..
    have hword : ∀ j < i, (s.put (0 + i) buf).word j = s.word j := fun j hj =>
      Function.update_of_ne (by omega) _ _
    have hloop : prpLoop pool (fuel + 1) 0 i buf length s
        = if (length : Int) - pageSize ≤ 0 then s.put (0 + i) buf
          else prpLoop pool fuel 0 (i + 1) (buf + pageSize) (length - pageSize) (s.put (0 + i) buf) := by
      rw [prpLoop, if_neg (show i ≠ pageSize >>> 3 from fun h => by
        rw [h] at hroom
        exact absurd hroom (by simp [pageSize]; omega))]
    rw [hloop, readList]
    by_cases hlast : (length : Int) - pageSize ≤ 0
    · rw [if_pos hlast, if_pos (by omega), Pool.fetch, hslot, hself]
      exact ⟨hput, hword, consecutive_singleton buf length⟩
    · have hcast : (length : Int) - pageSize = (length - pageSize : Nat) := by omega
      rw [if_neg hlast, if_neg (by omega), hcast]
      obtain ⟨hwritten, hframe, hread⟩ := @ih (i + 1) (buf + pageSize) (length - pageSize)
        (s.put (0 + i) buf) (by omega) (by unfold pageSize at *; omega)
        (by unfold pageSize at *; omega) hput
      refine ⟨hwritten, fun j hj => (hframe j (by omega)).trans (hword j hj), ?_⟩
      -- more than one page is left, so word `i` is not the last one of the page
      rw [if_neg (by unfold pageSize at *; omega), Nat.add_assoc, ← Nat.mul_succ, Pool.fetch, hslot,
        hframe (0 + i) (by omega), hself]
      exact ⟨rfl, by omega, hread⟩

/-- What `nvme_setup_prps` lists is the buffer, and the words of the list are inside of a page. -/
theorem nvmeSetupPrps_spec (hpool : pool % pageSize = 0) {totalLen : Nat}
    (hlen : totalLen ≤ maxReqSector * 512) (buf : Nat) (word : Nat → Nat) :
    let (length, prp1, prp2, s) := nvmeSetupPrps pool totalLen buf ⟨word, []⟩
    length = totalLen ∧ Consecutive buf totalLen (readPrps (s.fetch pool) prp1 prp2 totalLen) ∧
      ∀ i ∈ s.written, i < 512 := by
  unfold nvmeSetupPrps readPrps
  simp only
  by_cases hall : (totalLen : Int) - (pageSize - buf % pageSize : Nat) ≤ 0
  · rw [if_pos hall]
    refine ⟨rfl, ?_, nofun⟩
    dsimp only
    rw [Nat.min_eq_left (by omega), Nat.sub_self, if_pos rfl]
    exact consecutive_singleton buf totalLen
  have hfirst : min totalLen (pageSize - buf % pageSize) = pageSize - buf % pageSize := by omega
  have hcast : (totalLen : Int) - (pageSize - buf % pageSize : Nat)
      = (totalLen - (pageSize - buf % pageSize) : Nat) := by omega
  rw [if_neg hall]
  by_cases hone : (totalLen : Int) - (pageSize - buf % pageSize : Nat) ≤ pageSize
  · rw [if_pos hone]
    refine ⟨rfl, ?_, nofun⟩
    dsimp only
    rw [hfirst, if_neg (by omega), if_pos (by omega)]
    exact ⟨rfl, by omega, consecutive_singleton _ _⟩
  · rw [if_neg hone, hcast, Int.toNat_natCast]
    obtain ⟨hwritten, -, hread⟩ := @prpLoop_spec pool hpool
      (totalLen - (pageSize - buf % pageSize)) 0 (buf + (pageSize - buf % pageSize))
      (totalLen - (pageSize - buf % pageSize)) ⟨word, []⟩ (by omega) le_rfl
      (by unfold maxReqSector pageSize at *; omega) nofun
    refine ⟨rfl, ?_, hwritten⟩
    dsimp only
    rw [hfirst, if_neg (by omega), if_neg (by omega)]
    exact ⟨rfl, by omega, hread⟩

end Nvme
