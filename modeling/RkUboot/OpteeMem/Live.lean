import RkUboot.Lib.Run
import RkUboot.OpteeMem.Basic

set_option autoImplicit false

/-! # Live blocks

What the allocator is for: the blocks handed out and not yet freed are disjoint pieces of the pool,
and a page is flagged exactly while a live block contains it. The code keeps this as long as two
limits are respected that it does not check: a request of more pages than the pool has makes the
bound of the search wrap around, so that flags behind the array are read; and a block handed out
while all 50 records are in use is not recorded, so that freeing it clears no flag. -/

namespace OpteeMem

/-- A block `my_malloc` handed out, with the size asked for. -/
structure Block where
  addr : Nat
  size : Nat
  deriving DecidableEq, Repr

/-- Pages of the block. -/
def Block.pages (b : Block) : Nat := numPages b.size

/-- First page of the block in a pool that starts at `start`. -/
def Block.page (start : Nat) (b : Block) : Nat := (b.addr - start) / 4096

/-- The block contains page `p`. -/
def Block.Owns (start : Nat) (b : Block) (p : Nat) : Prop :=
  b.page start ≤ p ∧ p < b.page start + b.pages

/-- The allocator and the blocks that are live. -/
structure System where
  st : State
  live : List Block

inductive Action where
  | malloc (size : Nat)
  | free (ptr : Nat)
  deriving DecidableEq, Repr

/-- The system once `my_malloc(size)` has returned: a null pointer is no block. -/
def System.granted (s : System) (size : Nat) (r : Nat × State) : System :=
  if r.1 = 0 then ⟨r.2, s.live⟩ else ⟨r.2, ⟨r.1, size⟩ :: s.live⟩

def step (s : System) : Action → System
  | .malloc size => s.granted size (myMalloc size s.st)
  | .free ptr => ⟨myFree ptr s.st, s.live.eraseP (fun b => b.addr = ptr)⟩

/-- The system after `my_malloc_init`. -/
def initial (start size : Nat) (heap ram : Mem) : System := ⟨myMallocInit start size heap ram, []⟩

/-- What the allocator promises about a pool of `size` bytes at `start`. -/
structure Sound (start size : Nat) (s : System) : Prop where
  aligned : ∀ b ∈ s.live, b.addr % 4096 = 0
  inside : ∀ b ∈ s.live, start ≤ b.addr ∧ b.addr + 4096 * b.pages ≤ start + size
  large : ∀ b ∈ s.live, b.size ≤ 4096 * b.pages
  disjoint : s.live.Pairwise
    (fun a b => a.addr + 4096 * a.pages ≤ b.addr ∨ b.addr + 4096 * b.pages ≤ a.addr)
  flags : ∀ p, p < s.st.myCount → (s.st.myFlag p ≠ 0 ↔ ∃ b ∈ s.live, b.Owns start p)
  count : s.st.myCount = size / 4096
  accessed : ∀ i ∈ s.st.accessed, i < s.st.myCount

/-- Sizes are 32-bit numbers, and only live blocks are freed. -/
def Legal (s : System) : Action → Prop
  | .malloc size => size < 2 ^ 32
  | .free ptr => ∃ b ∈ s.live, b.addr = ptr

/-- What a request must meet in the state before it: a block asked for has no more pages than the
    pool, and a block given back is on record. -/
def Fits (s : System) : Action → Prop
  | .malloc size => numPages size ≤ s.st.myCount
  | .free ptr => findSizeblock ptr s.st.allocFlags ≠ 0

instance (s : System) : (a : Action) → Decidable (Legal s a)
  | .malloc size => inferInstanceAs (Decidable (size < 2 ^ 32))
  | .free _ => inferInstanceAs (Decidable (∃ b ∈ s.live, _))

instance (s : System) : (a : Action) → Decidable (Fits s a)
  | .malloc size => inferInstanceAs (Decidable (numPages size ≤ s.st.myCount))
  | .free ptr => inferInstanceAs (Decidable (findSizeblock ptr s.st.allocFlags ≠ 0))

/-! ## The block records -/

/-- Address and length of the blocks on record. -/
def recorded (bs : List AllocFlag) : List (Nat × Nat) :=
  (bs.filter (·.used)).map (fun f => (f.addrBlock, f.sizeBlock))

theorem recorded_cons_used (b : AllocFlag) (bs : List AllocFlag) (h : b.used = true) :
    recorded (b :: bs) = (b.addrBlock, b.sizeBlock) :: recorded bs := by
  unfold recorded
  rw [List.filter_cons_of_pos h, List.map_cons]

theorem recorded_cons_free (b : AllocFlag) (bs : List AllocFlag) (h : b.used = false) :
    recorded (b :: bs) = recorded bs := by
  unfold recorded
  rw [List.filter_cons_of_neg (by simp [h])]

/-- At most the block itself is added to the records. -/
theorem recorded_writeUsedblock (addr size : Nat) (bs : List AllocFlag) :
    (recorded (writeUsedblock addr size bs)).Subperm ((addr, size) :: recorded bs) := by
  induction bs with
  | nil => exact List.nil_subperm
  | cons b bs ih =>
    unfold writeUsedblock
    split
    · next hfree =>
      rw [recorded_cons_used _ _ rfl, recorded_cons_free _ _ hfree]
    next hused =>
    have hb : b.used = true := by simpa using hused
    rw [recorded_cons_used _ _ hb, recorded_cons_used _ _ hb]
    exact ((List.subperm_cons _).2 ih).trans (List.Perm.swap ..).subperm

/-- The record released is the one the length was read from. -/
theorem recorded_freeUsedblock (addr : Nat) (bs : List AllocFlag)
    (h : findSizeblock addr bs ≠ 0) :
    (recorded bs).Perm
      ((addr, findSizeblock addr bs) :: recorded (freeUsedblock addr bs)) := by
  induction bs with
  | nil => exact absurd rfl h
  | cons b bs ih =>
    unfold findSizeblock at h ⊢
    unfold freeUsedblock
    by_cases hm : b.used = true ∧ b.addrBlock = addr
    · rw [if_pos hm, if_pos hm, recorded_cons_used _ _ hm.1, recorded_cons_free _ _ rfl, hm.2]
    rw [if_neg hm] at h ⊢
    rw [if_neg hm]
    cases hu : b.used with
    | false =>
      rw [recorded_cons_free _ _ hu, recorded_cons_free _ _ hu]
      exact ih h
    | true =>
      rw [recorded_cons_used _ _ hu, recorded_cons_used _ _ hu]
      exact ((ih h).cons _).trans (List.Perm.swap ..)

/-! ## The invariant -/

/-- The record of a live block. -/
def Block.entry (b : Block) : Nat × Nat := (b.addr, 4096 * b.pages)

/-- The two blocks have no page in common. -/
def Apart (start : Nat) (a b : Block) : Prop :=
  a.page start + a.pages ≤ b.page start ∨ b.page start + b.pages ≤ a.page start

/-- What links the flags, the records and the live blocks, page by page. -/
structure Inv (start count : Nat) (s : System) : Prop where
  memStart : s.st.myMemStart = start
  myCount : s.st.myCount = count
  placed : ∀ b ∈ s.live, b.addr = start + 4096 * b.page start ∧ b.page start + b.pages ≤ count
  small : ∀ b ∈ s.live, b.size < 2 ^ 32
  apart : s.live.Pairwise (Apart start)
  flags : ∀ p, p < count → (s.st.myFlag p ≠ 0 ↔ ∃ b ∈ s.live, b.Owns start p)
  records : (recorded s.st.allocFlags).Subperm (s.live.map Block.entry)
  accessed : ∀ i ∈ s.st.accessed, i < count

variable {start count : Nat} {s : System}

theorem Block.pages_pos (b : Block) : 0 < b.pages := numPages_pos b.size

variable {a b : Block}

theorem Apart.symm (h : Apart start a b) : Apart start b a := Or.symm h

instance : Std.Symm (Apart start) := ⟨fun _ _ => Apart.symm⟩

/-- A live block is determined by its address. -/
theorem Inv.eq_of_addr (h : Inv start count s) (ha : a ∈ s.live) (hb : b ∈ s.live)
    (haddr : a.addr = b.addr) : a = b := by
  by_contra hne
  have hapart := h.apart.forall ha hb hne
  have hpage : a.page start = b.page start := congrArg (fun x => (x - start) / 4096) haddr
  have hpa := a.pages_pos
  have hpb := b.pages_pos
  unfold Apart at hapart
  omega

/-- Reads of flags below `my_count` keep the invariant. -/
theorem Inv.touch (h : Inv start count s) {acc : List Nat} (hacc : ∀ a ∈ acc, a < count) :
    Inv start count { s with st := touch acc s.st } := by
  refine { h with accessed := ?_ }
  intro i hi
  rcases List.mem_append.1 hi with hi | hi
  · exact hacc i hi
  · exact h.accessed i hi

/-! ## Handing out a block -/

/-- A free run is apart from every live block. -/
theorem Inv.apart_of_free (h : Inv start count s) {b' : Block} (hb : b ∈ s.live)
    (hfree : ∀ x, b'.page start ≤ x → x < b'.page start + b'.pages → s.st.myFlag x = 0) :
    Apart start b' b := by
  have hb' := b'.pages_pos
  have hpos := b.pages_pos
  by_contra hov
  unfold Apart at hov
  -- the later of the two first pages lies in both
  have hin : ∃ x, (b'.page start ≤ x ∧ x < b'.page start + b'.pages) ∧ b.Owns start x := by
    rcases Nat.le_total (b'.page start) (b.page start) with hle | hle
    · exact ⟨b.page start, by omega, Nat.le_refl _, by omega⟩
    · exact ⟨b'.page start, by omega, hle, by omega⟩
  obtain ⟨x, hx, hown⟩ := hin
  have hplaced := (h.placed b hb).2
  have hown' := hown.2
  exact (h.flags x (by omega)).2 ⟨b, hb, hown⟩ (hfree x hx.1 hx.2)

variable {num size : Nat}

theorem Inv.allocate (h : Inv start count s) (hcount : count < 2 ^ 20) {p : Nat}
    (hpages : b.pages = num) (haddr : b.addr = start + 4096 * p) (hsize : b.size < 2 ^ 32)
    (hp : p + num ≤ count)
    (hfree : ∀ x, p ≤ x → x < p + num → s.st.myFlag x = 0) :
    Inv start count ⟨(OpteeMem.allocate num p s.st).2, b :: s.live⟩ := by
  have hpage : b.page start = p := by
    rw [Block.page, haddr, Nat.add_sub_cancel_left, Nat.mul_div_cancel_left _ (by decide)]
  have hown : ∀ x, b.Owns start x ↔ p ≤ x ∧ x < p + num := by
    intro x
    unfold Block.Owns
    rw [hpage, hpages]
  refine ⟨(allocate_myMemStart ..).trans h.memStart, (allocate_myCount ..).trans h.myCount,
    ?_, ?_, ?_, ?_, ?_, ?_⟩
  · -- placed
    rw [List.forall_mem_cons, hpage, hpages]
    exact ⟨⟨haddr, hp⟩, h.placed⟩
  · -- small
    rw [List.forall_mem_cons]
    exact ⟨hsize, h.small⟩
  · -- apart
    refine List.pairwise_cons.2 ⟨fun b' hb' => h.apart_of_free hb' ?_, h.apart⟩
    rw [hpage, hpages]
    exact hfree
  · -- flags
    intro x hx
    simp only [allocate_myFlag, List.mem_cons, exists_eq_or_imp, hown]
    by_cases hin : p ≤ x ∧ x < p + num
    · rw [Mem.fill_apply_in hin.1 hin.2]
      exact iff_of_true (by decide) (.inl hin)
    · rw [Mem.fill_apply_out (by omega), h.flags x hx, or_iff_right hin]
  · -- records
    have hrec : (s.st.myMemStart + p * 4096 % 2 ^ 32, num * 4096 % 2 ^ 32) = b.entry := by
      rw [Block.entry, haddr, hpages, h.memStart]
      exact Prod.ext (by simp only; omega) (by simp only; omega)
    rw [allocate_allocFlags, List.map_cons, ← hrec]
    exact (recorded_writeUsedblock ..).trans ((List.subperm_cons _).2 h.records)
  · -- accessed
    intro a ha
    rcases (mem_allocate_accessed _ _ _ a).1 ha with hin | hin
    · omega
    · exact h.accessed a hin

theorem Inv.malloc (h : Inv start count s) (hstart : 0 < start) (hcount : count < 2 ^ 20)
    (hlegal : Legal s (.malloc size)) (hfits : Fits s (.malloc size)) :
    Inv start count (step s (.malloc size)) := by
  have hsize : size < 2 ^ 32 := hlegal
  have hnum : numPages size ≤ s.st.myCount := hfits
  have hres := myMalloc_result s.st size (by rw [h.myCount]; omega) hnum
  rw [h.myCount] at hnum hres
  obtain ⟨num, hn⟩ : ∃ num, numPages size = num := ⟨_, rfl⟩
  rw [hn] at hnum hres
  obtain ⟨acc, hacc, hcase⟩ := hres
  have htouch : Inv start count { s with st := OpteeMem.touch acc s.st } := by
    apply h.touch
    intro a ha
    have := hacc a ha
    omega
  rcases hcase with hnone | ⟨p, hp, hfree, hsome⟩
  · rw [step, hnone, System.granted, if_pos rfl]
    exact htouch
  have haddr : (OpteeMem.allocate num p (OpteeMem.touch acc s.st)).1 = start + 4096 * p := by
    rw [allocate_addr, htouch.memStart]
    omega
  -- the block is not at address 0, so the request was not refused
  have hne : ¬ start + 4096 * p = 0 := by omega
  rw [step, hsome, System.granted, haddr, if_neg hne]
  exact htouch.allocate hcount hn rfl hsize (by omega) hfree

/-! ## Taking a block back -/

/-- A page of a block that is apart from `b` is not a page of `b`. -/
theorem Apart.not_owns (h : Apart start a b) {x : Nat} (ha : a.Owns start x) :
    ¬ b.Owns start x := by
  unfold Block.Owns at ha ⊢
  unfold Apart at h
  omega

/-- The pages of a live block are cleared and its record is released. -/
theorem Inv.release (h : Inv start count s) {live : List Block}
    (hperm : s.live.Perm (b :: live)) {page : Nat} (hnum : b.pages = num)
    (hpage : b.page start = page)
    (hrec : (recorded (freeUsedblock b.addr s.st.allocFlags)).Subperm (live.map Block.entry)) :
    Inv start count ⟨setPages 0 num page
      { s.st with allocFlags := freeUsedblock b.addr s.st.allocFlags }, live⟩ := by
  have hmem : ∀ b' ∈ live, b' ∈ s.live := fun b' hb' =>
    hperm.mem_iff.2 (.tail _ hb')
  obtain ⟨-, hplaced⟩ := h.placed b (hperm.mem_iff.2 (.head _))
  obtain ⟨hapart, hrest⟩ := List.pairwise_cons.1 ((hperm.pairwise_iff Apart.symm).1 h.apart)
  obtain ⟨hstart, hcnt, hblocks⟩ := setPages_frame 0 num page
    { s.st with allocFlags := freeUsedblock b.addr s.st.allocFlags }
  have hown : ∀ x, b.Owns start x ↔ page ≤ x ∧ x < page + num := by
    intro x
    unfold Block.Owns
    rw [hpage, hnum]
  refine ⟨hstart.trans h.memStart, hcnt.trans h.myCount, fun b' hm => h.placed b' (hmem b' hm),
    fun b' hm => h.small b' (hmem b' hm), hrest, ?_, ?_, ?_⟩
  · -- flags
    intro x hx
    simp only [setPages_myFlag]
    by_cases hin : page ≤ x ∧ x < page + num
    · rw [Mem.fill_apply_in hin.1 hin.2]
      refine iff_of_false (by simp) ?_
      rintro ⟨b', hm, hown'⟩
      exact (hapart b' hm).not_owns ((hown x).2 hin) hown'
    · rw [Mem.fill_apply_out (by omega), h.flags x hx]
      constructor
      · rintro ⟨b', hm, hown'⟩
        rcases List.mem_cons.1 (hperm.mem_iff.1 hm) with rfl | hm
        · exact absurd ((hown x).1 hown') hin
        · exact ⟨b', hm, hown'⟩
      · rintro ⟨b', hm, hown'⟩
        exact ⟨b', hmem b' hm, hown'⟩
  · rw [hblocks]
    exact hrec
  -- accessed
  intro a ha
  rcases (mem_setPages_accessed 0 num page _ a).1 ha with hin | hin
  · omega
  · exact h.accessed a hin

theorem Inv.free (h : Inv start count s) (hcount : count < 2 ^ 20) {ptr : Nat}
    (hlegal : Legal s (.free ptr)) (hfits : Fits s (.free ptr)) :
    Inv start count (step s (.free ptr)) := by
  obtain ⟨b₀, hb₀, hptr₀⟩ := hlegal
  obtain ⟨b, l₁, l₂, -, hb, hsplit, herase⟩ :=
    List.exists_of_eraseP (p := fun b => b.addr = ptr) hb₀ (decide_eq_true hptr₀)
  obtain rfl : b.addr = ptr := of_decide_eq_true hb
  have hperm : s.live.Perm (b :: (l₁ ++ l₂)) := by
    rw [hsplit]
    exact List.perm_middle
  have hmem : b ∈ s.live := hperm.mem_iff.2 (.head _)
  -- the record found is the block's own: a live block is determined by its address
  have hrecs := recorded_freeUsedblock b.addr s.st.allocFlags hfits
  have hfind : (b.addr, findSizeblock b.addr s.st.allocFlags) = b.entry := by
    obtain ⟨b', hb', he⟩ := List.mem_map.1
      (h.records.subset (hrecs.mem_iff.2 (.head _)))
    rw [← he, h.eq_of_addr hb' hmem (congrArg Prod.fst he)]
  have hrest : (recorded (freeUsedblock b.addr s.st.allocFlags)).Subperm
      ((l₁ ++ l₂).map Block.entry) := by
    rw [hfind] at hrecs
    rw [← List.subperm_cons b.entry, ← List.map_cons]
    exact (hrecs.symm.subperm.trans h.records).trans (hperm.map _).subperm
  obtain ⟨haddr, hplaced⟩ := h.placed b hmem
  have hpos := b.pages_pos
  have hsize : findSizeblock b.addr s.st.allocFlags = 4096 * b.pages := congrArg Prod.snd hfind
  obtain ⟨num, hnum⟩ : ∃ num, b.pages = num := ⟨_, rfl⟩
  obtain ⟨page, hpage⟩ : ∃ page, b.page start = page := ⟨_, rfl⟩
  rw [hnum] at hplaced hpos hsize
  rw [hpage] at hplaced haddr
  have hfree := myFree_of_found s.st b.addr page num (by rw [h.memStart]; omega)
    (by rw [h.memStart]; exact hpage) (by omega) hpos (by omega) hsize
  rw [step, herase, hfree]
  exact h.release hperm hnum hpage hrest

/-! ## Whole runs -/

theorem Inv.step (h : Inv start count s) (hstart : 0 < start) (hcount : count < 2 ^ 20) (a : Action)
    (hlegal : Legal s a) (hfits : Fits s a) : Inv start count (step s a) := by
  cases a with
  | malloc size => exact h.malloc hstart hcount hlegal hfits
  | free ptr => exact h.free hcount hlegal hfits

theorem initial_inv (start size : Nat) (heap ram : Mem) :
    Inv start (size / 4096) (initial start size heap ram) := by
  refine ⟨rfl, rfl, by simp [initial], by simp [initial], List.Pairwise.nil, ?_, ?_, ?_⟩
  · intro p hp
    refine iff_of_false (not_not.2 ?_) (by simp [initial])
    exact Mem.fill_apply_in (Nat.zero_le p) (by omega)
  · exact List.Subperm.refl _
  · intro i hi
    exact absurd hi (List.not_mem_nil)

theorem Inv.sound (h : Inv start (size / 4096) s) (hstart : start % 4096 = 0) :
    Sound start size s := by
  refine ⟨?_, ?_, ?_, ?_, ?_, h.myCount, ?_⟩
  · intro b hb
    have := (h.placed b hb).1
    omega
  · intro b hb
    obtain ⟨haddr, hle⟩ := h.placed b hb
    omega
  · intro b hb
    exact le_numPages _ (h.small b hb)
  · refine h.apart.imp_of_mem ?_
    intro a b ha hb hab
    have ha' := (h.placed a ha).1
    have hb' := (h.placed b hb).1
    unfold Apart at hab
    omega
  · rw [h.myCount]
    exact h.flags
  · rw [h.myCount]
    exact h.accessed

/-- **For every page-aligned pool and every sequence of allocations and frees of live blocks that
    never asks for more pages than the pool has nor for a 51st live block, the live blocks are
    aligned, large enough, disjoint and inside the pool, a page is flagged exactly while a live
    block contains it, and every flag accessed is one of the pool's.** -/
theorem live_blocks_sound (start size : Nat) (heap ram : Mem) (hstart : 0 < start)
    (haligned : start % 4096 = 0) (hsize : size < 2 ^ 32) (as : List Action)
    (h : Run.Along step (fun s a => Legal s a ∧ Fits s a) (initial start size heap ram) as) :
    Sound start size (as.foldl step (initial start size heap ram)) := by
  refine Inv.sound (Run.along_invariant (I := Inv start (size / 4096)) ?_ as _
    (initial_inv start size heap ram) h) haligned
  intro s a hI hC
  exact hI.step hstart (by omega) a hC.1 hC.2

/-- Two blocks of a pool of four pages, and the first given back. -/
theorem live_blocks_sound_four_pages :
    Run.Along step (fun s a => Legal s a ∧ Fits s a) (initial 8192 16384 (fun _ => 7) (fun _ => 7))
        [.malloc 5000, .malloc 1, .free 8192] ∧
      Sound 8192 16384 ([Action.malloc 5000, .malloc 1, .free 8192].foldl step
        (initial 8192 16384 (fun _ => 7) (fun _ => 7))) := by
  have h : Run.Along step (fun s a => Legal s a ∧ Fits s a)
      (initial 8192 16384 (fun _ => 7) (fun _ => 7)) [.malloc 5000, .malloc 1, .free 8192] := by
    decide +kernel
  exact ⟨h, live_blocks_sound 8192 16384 _ _ (by decide) (by decide) (by decide) _ h⟩

/-- A request of two pages from a pool of one: the flag behind the array is set, and the block ends
    behind the pool. -/
theorem malloc_beyond_pool :
    Run.Along step Legal (initial 8192 4096 (fun _ => 0) (fun _ => 0)) [.malloc 8192] ∧
      ¬ Sound 8192 4096 ([Action.malloc 8192].foldl step
        (initial 8192 4096 (fun _ => 0) (fun _ => 0))) := by
  refine ⟨by decide +kernel, fun h => ?_⟩
  have hacc : 1 ∈ ([Action.malloc 8192].foldl step
      (initial 8192 4096 (fun _ => 0) (fun _ => 0))).st.accessed := by decide +kernel
  have hlt := h.accessed 1 hacc
  rw [h.count] at hlt
  exact absurd hlt (by decide)

end OpteeMem
