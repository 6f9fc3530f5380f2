import RkUboot.Lib.Mem

set_option autoImplicit false

/-! # The shared-memory allocator (`lib/optee_clientApi/OpteeClientMem.c`)

A pool of 4096-byte pages with one flag byte a page (`my_flag`) and a table of 50 records of the
blocks handed out (`alloc_flags`). `my_flag` is a piece of the heap: the model keeps the memory from
`my_flag` on, so an index of `my_count` or more reads what lies behind the array. `accessed` records
the indices of `my_flag` that were read or written. `uint32_t` arithmetic is modulo `2 ^ 32`. -/

namespace OpteeMem

/-- One record of `alloc_flags`. -/
structure AllocFlag where
  addrBlock : Nat
  sizeBlock : Nat
  used : Bool
  deriving DecidableEq, Repr

structure State where
  myMemStart : Nat
  myCount : Nat
  /-- The memory from `my_flag` on. -/
  myFlag : Mem
  allocFlags : List AllocFlag
  ram : Mem
  /-- Indices of `my_flag` read or written so far. -/
  accessed : List Nat

/-- Model of `my_malloc_init`; `heap` is the memory from the array `malloc` returns. -/
def myMallocInit (start size : Nat) (heap ram : Mem) : State where
  myMemStart := start
  myCount := size / 4096
  myFlag := heap.fill 0 0 (size / 4096)
  allocFlags := List.replicate 50 ⟨0, 0, false⟩
  ram := ram.fill start 0 size
  accessed := []

/-! ## The block records -/

/-- Model of `write_usedblock`: the first free record; nothing when all are in use. -/
def writeUsedblock (addr size : Nat) : List AllocFlag → List AllocFlag
  | [] => []
  | b :: bs => if b.used = false then ⟨addr, size, true⟩ :: bs else b :: writeUsedblock addr size bs

/-- Model of `find_sizeblock`. -/
def findSizeblock (addr : Nat) : List AllocFlag → Nat
  | [] => 0
  | b :: bs =>
    if b.used = true ∧ b.addrBlock = addr then b.sizeBlock else findSizeblock addr bs

/-- Model of `free_usedblock`. -/
def freeUsedblock (addr : Nat) : List AllocFlag → List AllocFlag
  | [] => []
  | b :: bs =>
    if b.used = true ∧ b.addrBlock = addr then ⟨0, 0, false⟩ :: bs else b :: freeUsedblock addr bs

/-! ## The pages -/

/-- Number of pages of a block: `(size - 1) / 4096 + 1` in `uint32_t`. -/
def numPages (size : Nat) : Nat := (size + (2 ^ 32 - 1)) % 2 ^ 32 / 4096 + 1

/-- The page loop of `my_malloc` (`v = 1`) and `my_free` (`v = 0`): flag and clear `n` pages from
    page `i`. -/
def setPages (v : UInt8) : Nat → Nat → State → State
  | 0, _, s => s
  | n + 1, i, s =>
    setPages v n (i + 1)
      { s with
        myFlag := s.myFlag.set8 i v
        ram := s.ram.fill (s.myMemStart + i * 4096 % 2 ^ 32) 0 4096
        accessed := i :: s.accessed }

/-- The inner loop of `my_malloc`: `j` when it ends, `n` flags to go. -/
def countFree (flag : Mem) (i : Nat) : Nat → Nat → Nat
  | 0, j => j
  | n + 1, j => if flag (i + j) ≠ 0 then j else countFree flag i n (j + 1)

/-- Record reads of `my_flag`. -/
def touch (is : List Nat) (s : State) : State := { s with accessed := is ++ s.accessed }

/-- Hand out `num` pages from page `i`: the address of the block, and the state with the block
    recorded. -/
def allocate (num i : Nat) (s : State) : Nat × State :=
  let s := setPages 1 num i s
  let addr := s.myMemStart + i * 4096 % 2 ^ 32
  (addr, { s with allocFlags := writeUsedblock addr (num * 4096 % 2 ^ 32) s.allocFlags })

/-- The search loop of `my_malloc`, `n` rounds to go from page `i`; the result is 0 when no run of
    free pages is found. -/
def search (num : Nat) : Nat → Nat → State → Nat × State
  | 0, _, s => (0, s)
  | n + 1, i, s =>
    let s := touch [i] s
    if s.myFlag i = 0 then
      let j := countFree s.myFlag i num 0
      let s := touch (List.range' i (min (j + 1) num)) s
      if j = num then allocate num i s
      else search num n (i + 1) s
    else search num n (i + 1) s

/-- Model of `my_malloc`; the bound `my_count - num` is a `uint32_t`. -/
def myMalloc (size : Nat) (s : State) : Nat × State :=
  search (numPages size) ((s.myCount + 2 ^ 32 - numPages size) % 2 ^ 32) 0 s

/-- Model of `my_free`. -/
def myFree (ptr : Nat) (s : State) : State :=
  if ptr < s.myMemStart then s
  else
    let i := (ptr - s.myMemStart) / 4096 % 2 ^ 32
    let size := findSizeblock ptr s.allocFlags
    let s := { s with allocFlags := freeUsedblock ptr s.allocFlags }
    if size = 0 then s else setPages 0 (numPages size) i s

/-! ## What the loops do -/

variable (v : UInt8) (n i : Nat) (s : State)

theorem setPages_frame :
    (setPages v n i s).myMemStart = s.myMemStart ∧ (setPages v n i s).myCount = s.myCount ∧
      (setPages v n i s).allocFlags = s.allocFlags := by
  induction n generalizing i s with
  | zero => exact ⟨rfl, rfl, rfl⟩
  | succ n ih => exact ih _ _

theorem setPages_myFlag : (setPages v n i s).myFlag = s.myFlag.fill i v n := by
  induction n generalizing i s with
  | zero =>
    funext x
    exact (Mem.fill_apply_out (by omega)).symm
  | succ n ih =>
    rw [setPages, ih]
    funext x
    by_cases hx : i ≤ x ∧ x < i + (n + 1)
    · rw [Mem.fill_apply_in hx.1 hx.2]
      by_cases he : x = i
      · rw [Mem.fill_apply_out (by omega)]
        exact if_pos he
      · rw [Mem.fill_apply_in (by omega) (by omega)]
    · rw [Mem.fill_apply_out (by omega), Mem.fill_apply_out (by omega)]
      exact if_neg (by omega)

theorem mem_setPages_accessed (a : Nat) :
    a ∈ (setPages v n i s).accessed ↔ (i ≤ a ∧ a < i + n) ∨ a ∈ s.accessed := by
  induction n generalizing i s with
  | zero =>
    exact ⟨.inr, fun h => h.resolve_left (by omega)⟩
  | succ n ih =>
    rw [setPages, ih, List.mem_cons]
    constructor
    · rintro (h | h | h)
      · exact .inl (by omega)
      · exact .inl (by omega)
      · exact .inr h
    · rintro (h | h)
      · omega
      · exact .inr (.inr h)

theorem countFree_spec (flag : Mem) (j : Nat) :
    countFree flag i n j ≤ j + n ∧
      ∀ x, j ≤ x → x < countFree flag i n j → flag (i + x) = 0 := by
  induction n generalizing j with
  | zero =>
    refine ⟨Nat.le_refl _, fun x hx hx' => ?_⟩
    exact absurd hx' (not_lt.2 hx)
  | succ n ih =>
    unfold countFree
    split
    · exact ⟨by omega, fun x hx hx' => absurd hx' (not_lt.2 hx)⟩
    · next hz =>
      obtain ⟨hle, hfree⟩ := ih (j + 1)
      refine ⟨by omega, fun x hx hx' => ?_⟩
      by_cases he : x = j
      · rw [he]
        exact not_not.1 hz
      · exact hfree x (by omega) hx'

/-- The address of the block handed out. -/
theorem allocate_addr : (allocate n i s).1 = s.myMemStart + i * 4096 % 2 ^ 32 :=
  congrArg (· + i * 4096 % 2 ^ 32) (setPages_frame 1 n i s).1

theorem allocate_allocFlags :
    (allocate n i s).2.allocFlags
      = writeUsedblock (s.myMemStart + i * 4096 % 2 ^ 32) (n * 4096 % 2 ^ 32) s.allocFlags := by
  obtain ⟨hstart, -, hblocks⟩ := setPages_frame 1 n i s
  unfold allocate
  simp only [hstart, hblocks]

theorem allocate_myMemStart : (allocate n i s).2.myMemStart = s.myMemStart :=
  (setPages_frame 1 n i s).1

theorem allocate_myCount : (allocate n i s).2.myCount = s.myCount :=
  (setPages_frame 1 n i s).2.1

theorem allocate_myFlag : (allocate n i s).2.myFlag = s.myFlag.fill i 1 n :=
  setPages_myFlag 1 n i s

theorem mem_allocate_accessed (a : Nat) :
    a ∈ (allocate n i s).2.accessed ↔ (i ≤ a ∧ a < i + n) ∨ a ∈ s.accessed :=
  mem_setPages_accessed 1 n i s a

theorem touch_touch (is js : List Nat) : touch is (touch js s) = touch (is ++ js) s := by
  unfold touch
  rw [List.append_assoc]

/-- What a search below `bound` can end with: nothing, or a run of free pages. The flags it looked
    at end before the last run it may try. -/
def SearchResult (num bound : Nat) (s : State) (r : Nat × State) : Prop :=
  ∃ acc, (∀ a ∈ acc, a + 1 < bound + num) ∧
    (r = (0, touch acc s) ∨
      ∃ p, p < bound ∧ (∀ x, p ≤ x → x < p + num → s.myFlag x = 0) ∧
        r = allocate num p (touch acc s))

/-- Reads before the rest of the search. -/
theorem SearchResult.of_touch {num bound : Nat} {r : Nat × State} {js : List Nat}
    (hjs : ∀ a ∈ js, a + 1 < bound + num) (h : SearchResult num bound (touch js s) r) :
    SearchResult num bound s r := by
  obtain ⟨acc, hacc, hcase⟩ := h
  rw [touch_touch] at hcase
  refine ⟨acc ++ js, ?_, hcase⟩
  intro a ha
  rcases List.mem_append.1 ha with h | h
  · exact hacc a h
  · exact hjs a h

theorem search_result (num : Nat) (hnum : 0 < num) :
    SearchResult num (i + n) s (search num n i s) := by
  induction n generalizing i s with
  | zero => exact ⟨[], by simp, .inl rfl⟩
  | succ n ih =>
    have hbound : i + 1 + n = i + (n + 1) := by omega
    have hi : ∀ a ∈ [i], a + 1 < i + (n + 1) + num := by
      intro a ha
      rw [List.mem_singleton] at ha
      omega
    rw [search]
    apply SearchResult.of_touch s hi
    split
    · have hreads : ∀ a ∈ List.range' i (min (countFree (touch [i] s).myFlag i num 0 + 1) num),
          a + 1 < i + (n + 1) + num := by
        intro a ha
        rw [List.mem_range'_1] at ha
        omega
      apply SearchResult.of_touch _ hreads
      simp only
      split
      · next hj =>
        obtain ⟨-, hfree⟩ := countFree_spec num i (touch [i] s).myFlag 0
        refine ⟨[], by simp, .inr ⟨i, by omega, ?_, rfl⟩⟩
        intro x hx hx'
        have hz := hfree (x - i) (Nat.zero_le _) (by omega)
        rwa [Nat.add_sub_cancel' hx] at hz
      · rw [← hbound]
        exact ih _ _
    · rw [← hbound]
      exact ih _ _

theorem numPages_pos (size : Nat) : 0 < numPages size := Nat.succ_pos _

/-- With a size that fits the pool the bound of the search does not wrap. -/
theorem myMalloc_result (size : Nat) (hcount : s.myCount < 2 ^ 32)
    (h : numPages size ≤ s.myCount) :
    SearchResult (numPages size) (s.myCount - numPages size) s (myMalloc size s) := by
  have hbound : (s.myCount + 2 ^ 32 - numPages size) % 2 ^ 32 = s.myCount - numPages size := by
    omega
  have hres := search_result (s.myCount - numPages size) 0 s (numPages size) (numPages_pos size)
  rw [Nat.zero_add] at hres
  rwa [myMalloc, hbound]

/-- The length on record gives back the number of pages. -/
theorem numPages_bytes (num : Nat) (hnum : 0 < num) (h : num < 2 ^ 20) :
    numPages (4096 * num) = num := by
  unfold numPages
  omega

theorem le_numPages (size : Nat) (h : size < 2 ^ 32) : size ≤ 4096 * numPages size := by
  unfold numPages
  omega

/-- Freeing a block on record clears its pages. -/
theorem myFree_of_found (ptr page num : Nat) (hstart : s.myMemStart ≤ ptr)
    (hpage : (ptr - s.myMemStart) / 4096 = page) (hlt : page < 2 ^ 20) (hnum : 0 < num)
    (hlt' : num < 2 ^ 20) (hfind : findSizeblock ptr s.allocFlags = 4096 * num) :
    myFree ptr s
      = setPages 0 num page { s with allocFlags := freeUsedblock ptr s.allocFlags } := by
  unfold myFree
  simp only [if_neg (not_lt.2 hstart), hpage, hfind, numPages_bytes num hnum hlt']
  rw [if_neg (by omega), Nat.mod_eq_of_lt (by omega)]

end OpteeMem
